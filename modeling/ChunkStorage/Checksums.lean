import ChunkStorage.ClientFiles
import ChunkStorage.UploadReport

set_option autoImplicit false

/-! # The checksums of the client and of the worker

`HashFile` and the receive loop of `Put` cut the same bytes at different places and encode the digest
on their own, and `ValidateChecksum` describes what they encode a third time. -/

namespace ChunkStorage

open Effects Posix Program

/-- Feeding pieces one after the other is feeding all of them. -/
theorem Blake3.foldl_update (B : Blake3) (pieces : List Bytes) (h : B.Hasher) :
    pieces.foldl B.update h = B.update h pieces.flatten := by
  induction pieces generalizing h with
  | nil => rw [List.foldl_nil, List.flatten_nil, B.update_nil]
  | cons piece pieces ih => rw [List.foldl_cons, ih, B.update_append, List.flatten_cons]

/-- The accepted checksums are the encodings of 32 bytes. -/
theorem wellFormed_iff_hexEncode (checksum : Checksum) :
    checksum.WellFormed ↔ ∃ digest : Bytes, digest.length = 32 ∧ checksum.value = hexEncode digest := by
  constructor
  · rintro ⟨hlen, hdigits⟩
    obtain ⟨digest, hdigest, henc⟩ := exists_hexEncode 32 hlen hdigits
    exact ⟨digest, hdigest, henc.symm⟩
  · rintro ⟨digest, hlen, hvalue⟩
    rw [Checksum.WellFormed, hvalue, length_hexEncode, hlen]
    exact ⟨rfl, isHexDigit_hexEncode digest⟩

/-! ## `HashFile` -/

section Client

variable {β : Type} {transport : Transport β} {me : ℕ}
  {ok : (op : ClientSig.Op) → ClientWorld β → Outcome → Prop}

/-- If `HashFile` succeeds, it has seen the whole file. -/
theorem hashFile_ok (B : Blake3) {path : Path} {d : Bytes} {w : ClientWorld β}
    (hd : w.fs.contents path = some d) :
    (StorageClient.hashFile B path).Always ((World.handler me transport).sem ok) w
      (fun r _ => ∀ x, r = .ok x → x = (UInt64.ofNat d.length, B.checksum d)) := by
  have hsource := Reading.source (β := β) me hd
  unfold StorageClient.hashFile
  refine safe_sys fun w₁ hR o r fds fs hok hexec => ⟨trivial, ?_⟩
  subst hR
  obtain ⟨rfl, ⟨e, rfl, -⟩ | ⟨i, hi, rfl, rfl⟩⟩ := openRead_cases hexec
  · intro x hx
    exact absurd hx (by simp [StatusOr.ofStatus])
  · have hP := (hsource.opened rfl hi _ rfl).1
    refine safe_bind.2 ((hashOpened_safe B (hsource.uploads w.fds.length).toScans hP).imp ?_)
    rintro r w' (⟨s, ⟨rfl, -⟩, rfl⟩ | ⟨e, rfl, -⟩)
    · intro x hx
      exact (Except.ok.inj hx).symm
    · intro x hx
      exact absurd hx (by simp)

/-- Whatever happens to the file, what `HashFile` returns is an encoded digest. -/
theorem hashFile_wellFormed (B : Blake3) (path : Path) (w : ClientWorld β) :
    (StorageClient.hashFile B path).Safe ((World.handler me transport).sem ok)
      (fun _ _ => True) (fun _ _ => True) (fun r _ => ∀ x, r = .ok x → x.2.WellFormed) w := by
  unfold StorageClient.hashFile
  refine safe_sys fun w₁ _ o r fds fs _ _ => ⟨trivial, ?_⟩
  cases r with
  | error e =>
      intro x hx
      exact absurd hx (by simp [StatusOr.ofStatus])
  | ok fd =>
      have hloop : ∀ (rounds : ℕ) (hasher : B.Hasher) (size : UInt64) (w : ClientWorld β),
          (StorageClient.hashLoop B fd rounds hasher size).Safe ((World.handler me transport).sem ok)
            (fun _ _ => True) (fun _ _ => True) (fun _ _ => True) w := by
        intro rounds
        induction rounds with
        | zero => exact fun _ _ _ => trivial
        | succ rounds ih =>
            intro hasher size w
            unfold StorageClient.hashLoop
            refine safe_transfer fun w₁ _ o r fds fs _ _ _ => ⟨trivial, ?_⟩
            cases r with
            | error e => trivial
            | ok bytes =>
                by_cases h0 : bytes.length = 0
                · simp only [h0, if_true]
                  trivial
                · simp only [h0, if_false]
                  exact ih _ _ _
      refine safe_bind.2 ((hloop _ _ _ _).imp fun r w' _ => ?_)
      rcases r with e | ⟨hasher, size⟩
      · intro x hx
        exact absurd hx (by simp)
      · intro x hx
        obtain rfl := Except.ok.inj hx
        exact (wellFormed_iff_hexEncode _).2 ⟨_, B.length_finalize hasher, rfl⟩

end Client

/-! ## The receive loop of `Put` -/

section Worker

variable {σ τ : Type} {input : ChunkInputStream σ} {output : ChunkOutputStream τ} {me : ℕ}
  {ok : (op : StoreSig.Op) → StoreWorld σ τ → Outcome → Prop}

/-- The receive loop on any open descriptor, of which only the position matters. -/
theorem fills_opened (fd : ℕ) : Fills (σ := σ) (τ := τ) Eq (fun _ _ => True)
    (fun d w => ∃ i, w.fds[fd]? = some ⟨i, d.length⟩) fd where
  env hw hR := hR ▸ hw
  opened := by
    rintro d w ⟨i, hi⟩
    exact ⟨_, hi, rfl⟩
  wrote {d w f n} data hw hf hn hmax w' hw' := by
    obtain ⟨i, hi⟩ := hw
    obtain rfl : ⟨i, d.length⟩ = f := Option.some.inj (hi.symm.trans hf)
    subst hw'
    have hlt := (List.getElem?_eq_some_iff.1 hi).1
    exact ⟨⟨i, by simp [hlt, hn]⟩, trivial⟩
  refused data r hw hr := ⟨hw, trivial⟩
  rest hR := by rw [hR]
  read size r rest hw := ⟨hw, trivial⟩

/-- If the receive loop succeeds, it has hashed what the stream delivers. -/
theorem receive_ok (B : Blake3) (request : PutChunkRequest) {fd : ℕ} {f : OpenFile}
    {w : StoreWorld σ τ} (hf : w.fds[fd]? = some f) {p : Bytes} (hp : Delivers input w.rest.1 p) :
    (receive B request fd (request.expectedSize.toNat + 1) B.init 0).Always
      ((World.handler me (streams input output)).sem ok) w
      (fun r _ => ∀ x, r = .ok x → finalizeHex B x.1 = B.hex p) := by
  have hzero : (0 : UInt64).toNat = 0 := rfl
  have hw : ∃ i, w.fds[fd]? = some ⟨i, (List.replicate f.offset (0 : UInt8)).length⟩ :=
    ⟨f.ino, by rw [List.length_replicate]; exact hf⟩
  refine (receive_safe B request (fills_opened fd) (request.expectedSize.toNat + 1)
    (by omega) (by omega) hw).imp ?_
  rintro r w' ⟨q, hanswer, -⟩ x rfl
  rcases hanswer with ⟨hdel, hr⟩ | ⟨status, -, hr⟩ | ⟨status, -, hr, -⟩ | ⟨status, hr, -⟩
  · obtain rfl := Except.ok.inj hr
    obtain rfl := hp.unique (deliver_complete_iff.1 hdel).1
    rfl
  · exact absurd hr (by simp)
  · exact absurd hr (by simp)
  · exact absurd hr (by simp)

end Worker

/-- **The checksums of the client and of the worker agree, and the accepted ones are exactly the
    encodable ones.** However a byte string is cut, feeding the pieces gives one string. On every run
    that `HashFile` makes over a file and the receive loop of `Put` over a stream with the same bytes,
    both compute that string. Encoding is injective, `ValidateChecksum` accepts the encodings of 32
    bytes and nothing else, and so it accepts whatever `HashFile` returns, also of a file that
    changes while it is read. -/
theorem checksums_agree (B : Blake3) :
    (∀ xs ys : List Bytes, xs.flatten = ys.flatten →
      finalizeHex B (xs.foldl B.update B.init) = finalizeHex B (ys.foldl B.update B.init)) ∧
    (∀ {β σ τ : Type} (transport : Transport β) (input : ChunkInputStream σ)
      (output : ChunkOutputStream τ) (me me' : ℕ) (path : Path) (p : Bytes) (w w₁ : ClientWorld β)
      (ω : ℕ → Outcome) (size : UInt64) (checksum : Checksum), w.fs.contents path = some p →
      Config.Returns (World.handler me transport) (StorageClient.hashFile B path, w) ω
        (.ok (size, checksum)) w₁ →
      ∀ (request : PutChunkRequest) (fd : ℕ) (f : OpenFile) (v v₁ : StoreWorld σ τ) (ω' : ℕ → Outcome)
        (hasher : B.Hasher) (received : UInt64), v.fds[fd]? = some f → Delivers input v.rest.1 p →
        Config.Returns (World.handler me' (streams input output))
          (receive B request fd (request.expectedSize.toNat + 1) B.init 0, v) ω'
          (.ok (hasher, received)) v₁ →
        finalizeHex B hasher = checksum.value) ∧
    (∀ a b : Bytes, a.length = 32 → b.length = 32 → hexEncode a = hexEncode b → a = b) ∧
    (∀ checksum : Checksum, (validateChecksum checksum).ok = true ↔
      ∃ digest : Bytes, digest.length = 32 ∧ checksum.value = hexEncode digest) ∧
    (∀ {β : Type} (transport : Transport β) (me : ℕ) (path : Path) (w : ClientWorld β),
      (StorageClient.hashFile B path).Safe ((World.handler me transport).sem World.Any)
        (fun _ _ => True) (fun _ _ => True)
        (fun r _ => ∀ x, r = .ok x → (validateChecksum x.2).ok = true) w) := by
  refine ⟨?_, ?_, ?_, ?_, ?_⟩
  · intro xs ys hsame
    rw [B.foldl_update, B.foldl_update, hsame]
  · intro β σ τ transport input output me me' path p w w₁ ω size checksum hp hhash request fd f v v₁
      ω' hasher received hf hdelivers hreceive
    have hclient : Always ((World.handler me transport).sem World.Any) _ w _ := hashFile_ok B hp
    have hworker : Always ((World.handler me' (streams input output)).sem World.Any) _ v _ :=
      receive_ok B request hf hdelivers
    replace hclient := hclient.of_returns (fun _ _ _ _ _ => trivial) hhash
    replace hworker := hworker.of_returns (fun _ _ _ _ _ => trivial) hreceive
    obtain ⟨rfl, rfl⟩ := Prod.mk.inj (hclient _ rfl)
    exact hworker _ rfl
  · intro a b _ _ hab
    exact hexEncode_injective hab
  · intro checksum
    rw [validateChecksum_ok, wellFormed_iff_hexEncode]
  · intro β transport me path w
    refine (hashFile_wellFormed B path w).imp fun r w' h x hx => ?_
    exact (validateChecksum_ok _).2 (h x hx)

/-- A client with the one-byte file `"f"`, of a worker that cannot be reached. -/
def oneByteClient : ClientWorld Unit :=
  ⟨[], ((FS.empty 255).create ⟨[0x64], [0x66]⟩ 0).modify 0 (·.write 0 [0x61]), [], ()⟩

abbrev oneByteClientHandler : Handler ClientSig (ClientWorld Unit) Outcome :=
  World.handler 0 (refusingTransport (⟨.UNAVAILABLE, []⟩, .unset))

/-- A `Put` of the byte, behind its `open`. -/
def oneByteReceiver : StoreWorld Bytes Unit :=
  ⟨[⟨0, 0⟩], (FS.empty 255).create ⟨[0x72], [0x74]⟩ 1, [], ([0x61], ())⟩

abbrev oneByteReceiverHandler : Handler StoreSig (StoreWorld Bytes Unit) Outcome :=
  (sampleInvocation (.put (samplePut [0x61]) 1 2) [0x61]).handler 1

/-- Client and worker hash one byte. -/
theorem checksums_agree_one_byte :
    ∃ size checksum hasher received w₁ v₁,
      Config.Returns oneByteClientHandler
        (StorageClient.hashFile Blake3.sample ⟨[0x64], [0x66]⟩, oneByteClient) (fun _ => .done)
        (.ok (size, checksum)) w₁ ∧
      Config.Returns oneByteReceiverHandler
        (receive Blake3.sample (samplePut [0x61]) 0 2 Blake3.sample.init 0, oneByteReceiver)
        (fun _ => .done) (.ok (hasher, received)) v₁ ∧
      finalizeHex Blake3.sample hasher = checksum.value := by
  have hclient : Config.Returns oneByteClientHandler
      (StorageClient.hashFile Blake3.sample ⟨[0x64], [0x66]⟩, oneByteClient) (fun _ => .done)
      (.ok (1, ⟨.kBlake3, finalizeHex Blake3.sample [0x61]⟩)) _ := ⟨3, rfl⟩
  have hworker : Config.Returns oneByteReceiverHandler
      (receive Blake3.sample (samplePut [0x61]) 0 2 Blake3.sample.init 0, oneByteReceiver)
      (fun _ => .done) (.ok ([0x61], 1)) _ := ⟨3, rfl⟩
  have hdelivers : Delivers (sampleInvocation (.put (samplePut [0x61]) 1 2) [0x61]).input [0x61]
      ([0x61] ++ []) := .more rfl (by simp) (by simp [kBufferSize]) (.ended rfl)
  exact ⟨_, _, _, _, _, _, hclient, hworker, (checksums_agree Blake3.sample).2.1 _ _ _ 0 1 _ [0x61] _ _ _
    _ _ rfl hclient (samplePut [0x61]) 0 _ _ _ _ _ _ rfl hdelivers hworker⟩

end ChunkStorage
