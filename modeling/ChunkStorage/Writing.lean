import ChunkStorage.Header

set_option autoImplicit false

/-! # Filling a temporary file

`WriteAll`, the receive loop of `Put` and the part of `Put` up to the sync, on a file that nobody
else writes. `deliver` says what a stream gives a reader that wants at most so many bytes; the
receive loop is compared with it, and `Accepts` and `Rejects` are the two ways the checks of `Put`
end. As in `Reading`, the surroundings are an assertion: `P d` knows that the file holds `d`. -/

namespace ChunkStorage

open Effects Posix Program

/-! ## What a stream delivers -/

variable {σ τ : Type}

/-- The stream, read to its end with buffers of `kBufferSize`, delivers the bytes. -/
inductive Delivers (input : ChunkInputStream σ) : σ → Bytes → Prop
  | ended {s s' : σ} : input s kBufferSize = (.ok [], s') → Delivers input s []
  | more {s s' : σ} {bytes p : Bytes} : input s kBufferSize = (.ok bytes, s') → bytes ≠ [] →
      bytes.length ≤ kBufferSize → Delivers input s' p → Delivers input s (bytes ++ p)

/-- What a reader that wants at most so many bytes gets from a stream. -/
inductive Delivery where
  /-- The stream ended. -/
  | complete (p : Bytes)
  /-- A read failed with the stream's own status. -/
  | failed (status : Status)
  /-- A read brought more bytes than were wanted, or than the buffer holds. -/
  | excess

/-- The delivery whose first block is `bytes`. -/
def Delivery.after (bytes : Bytes) : Delivery → Delivery
  | .complete p => .complete (bytes ++ p)
  | .failed status => .failed status
  | .excess => .excess

def deliver (input : ChunkInputStream σ) (limit : ℕ) (s : σ) : Delivery :=
  match input s kBufferSize with
  | (.error e, _) => .failed e.1
  | (.ok bytes, s') =>
      if _h0 : bytes.length = 0 then .complete []
      else if _h : bytes.length > kBufferSize ∨ bytes.length > limit then .excess
      else (deliver input (limit - bytes.length) s').after bytes
termination_by limit
decreasing_by omega

section Deliver

variable {input : ChunkInputStream σ} {s s' : σ} {limit : ℕ} {bytes p : Bytes}

theorem deliver_failed {e : ErrorStatus} (h : input s kBufferSize = (.error e, s')) :
    deliver input limit s = .failed e.1 := by
  rw [deliver, h]

theorem deliver_ended (h : input s kBufferSize = (.ok bytes, s')) (h0 : bytes.length = 0) :
    deliver input limit s = .complete [] := by
  rw [deliver, h]
  exact dif_pos h0

theorem deliver_excess (h : input s kBufferSize = (.ok bytes, s')) (h0 : bytes.length ≠ 0)
    (hbig : bytes.length > kBufferSize ∨ bytes.length > limit) :
    deliver input limit s = .excess := by
  rw [deliver, h]
  dsimp only
  rw [dif_neg h0, dif_pos hbig]

theorem deliver_more (h : input s kBufferSize = (.ok bytes, s')) (h0 : bytes.length ≠ 0)
    (hfit : ¬ (bytes.length > kBufferSize ∨ bytes.length > limit)) :
    deliver input limit s = (deliver input (limit - bytes.length) s').after bytes := by
  rw [deliver, h]
  dsimp only
  rw [dif_neg h0, dif_neg hfit]

theorem Delivery.after_complete {d : Delivery} (h : d.after bytes = .complete p) :
    ∃ q, d = .complete q ∧ p = bytes ++ q := by
  cases d with
  | complete q =>
      simp only [Delivery.after, Delivery.complete.injEq] at h
      exact ⟨q, rfl, h.symm⟩
  | failed status => simp [Delivery.after] at h
  | excess => simp [Delivery.after] at h

/-- **A complete delivery is all the stream has**, if that is at most the limit. -/
theorem deliver_complete_iff :
    deliver input limit s = .complete p ↔ Delivers input s p ∧ p.length ≤ limit := by
  constructor
  · intro h
    induction limit using Nat.strong_induction_on generalizing s p with
    | _ limit ih =>
        rcases hread : input s kBufferSize with ⟨_ | bytes, s'⟩
        · rw [deliver_failed hread] at h
          exact absurd h (by simp)
        · by_cases h0 : bytes.length = 0
          · rw [deliver_ended hread h0] at h
            obtain rfl : [] = p := Delivery.complete.inj h
            obtain rfl : bytes = [] := List.length_eq_zero_iff.1 h0
            exact ⟨.ended hread, by simp⟩
          · by_cases hbig : bytes.length > kBufferSize ∨ bytes.length > limit
            · rw [deliver_excess hread h0 hbig] at h
              exact absurd h (by simp)
            · rw [deliver_more hread h0 hbig] at h
              obtain ⟨q, hq, rfl⟩ := Delivery.after_complete h
              obtain ⟨hd, hlen⟩ := ih (limit - bytes.length) (by omega) hq
              refine ⟨.more hread (fun he => h0 (by simp [he])) (by omega) hd, ?_⟩
              rw [List.length_append]
              omega
  · rintro ⟨h, hlen⟩
    induction h generalizing limit with
    | ended hread => exact deliver_ended hread rfl
    | @more s s' bytes p hread hne hbuf _ ih =>
        rw [List.length_append] at hlen
        rw [deliver_more hread (fun h0 => hne (List.length_eq_zero_iff.1 h0)) (by omega),
          ih (by omega)]
        rfl

/-- A stream delivers one thing. -/
theorem Delivers.unique {q : Bytes} (h : Delivers input s p) (h' : Delivers input s q) : p = q := by
  have hp := deliver_complete_iff.2 ⟨h, Nat.le_max_left p.length q.length⟩
  have hq := deliver_complete_iff.2 ⟨h', Nat.le_max_right p.length q.length⟩
  exact Delivery.complete.inj (hp.symm.trans hq)

/-- No read fails of a stream that delivers. -/
theorem Delivers.not_failed (h : Delivers input s p) (status : Status) :
    deliver input limit s ≠ .failed status := by
  induction h generalizing limit with
  | ended hread =>
      rw [deliver_ended hread rfl]
      exact nofun
  | @more s s' bytes p hread hne hbuf _ ih =>
      have h0 : bytes.length ≠ 0 := fun h0 => hne (List.length_eq_zero_iff.1 h0)
      by_cases hbig : bytes.length > kBufferSize ∨ bytes.length > limit
      · rw [deliver_excess hread h0 hbig]
        exact nofun
      · rw [deliver_more hread h0 hbig]
        intro hfailed
        generalize hrest : deliver input (limit - bytes.length) s' = rest at hfailed
        cases rest with
        | complete q => exact absurd hfailed nofun
        | excess => exact absurd hfailed nofun
        | failed own =>
            rw [Delivery.failed.inj hfailed] at hrest
            exact ih hrest

end Deliver

/-! ## `WriteAll` -/

section WriteAll

variable {B : Signature} {β : Type} {hB : (op : B.Op) → β → B.Ret op × β} {me : ℕ}
  {ok : (op : (Sys.sum B).Op) → World B β → Outcome → Prop} {R G : World B β → World B β → Prop}

/-- `P d` knows that the descriptor is open at the end of a file that holds `d`, and keeps up with
    what is written to it. -/
structure Appends (R G : World B β → World B β → Prop) (P : Bytes → World B β → Prop) (fd : ℕ) :
    Prop where
  env : ∀ {d w w'}, P d w → R w w' → P d w'
  opened : ∀ {d w}, P d w → ∃ f, w.fds[fd]? = some f ∧ f.offset = d.length
  wrote : ∀ {d w f n} (data : Bytes), P d w → w.fds[fd]? = some f → n ≤ data.length →
    d.length + n ≤ offMax →
    ∀ w', w' = w.answered (.write fd data) (.wrote n) (w.fds.set fd ⟨f.ino, f.offset + n⟩)
        (w.fs.modify f.ino fun i => i.write f.offset (data.take n)) →
      P (d ++ data.take n) w' ∧ G w w'
  refused : ∀ {d w} (data : Bytes) (r : WriteReply), P d w → (∀ n, r ≠ .wrote n) →
    P d (w.answered (.write fd data) r w.fds w.fs) ∧ G w (w.answered (.write fd data) r w.fds w.fs)

theorem writeAllLoop_safe {P : Bytes → World B β → Prop} {fd : ℕ} (h : Appends R G P fd)
    (rounds : ℕ) (data : Bytes) (hrounds : data.length ≤ rounds) {d : Bytes} {w : World B β}
    (hw : P d w) :
    (writeAllLoop fd rounds data).Safe ((World.handler me hB).sem ok) R G
      (fun status w' => ∃ n ≤ data.length, P (d ++ data.take n) w' ∧
        ((status = .Ok ∧ n = data.length) ∨
          (status.code = .kIoError ∧ ¬ World.NeverFails ok))) w := by
  induction rounds generalizing data d w with
  | zero => exact ⟨0, by omega, by simpa using hw, Or.inl ⟨rfl, by omega⟩⟩
  | succ rounds ih =>
      unfold writeAllLoop
      by_cases hempty : data.isEmpty = true
      · rw [if_pos hempty]
        obtain rfl : data = [] := List.isEmpty_iff.1 hempty
        exact ⟨0, le_rfl, by simpa using hw, Or.inl ⟨rfl, rfl⟩⟩
      · rw [if_neg hempty]
        have hne : data ≠ [] := fun he => hempty (by simp [he])
        refine safe_retrying.2 fun w₁ hR r w₂ hH => ?_
        obtain ⟨o, fds', fs', hok, hexec, rfl⟩ := World.sem_sys hH
        have hw₁ := h.env hw hR
        obtain ⟨f, hf, hoff⟩ := h.opened hw₁
        rcases write_cases hf hexec with ⟨⟨e, hr⟩, rfl, rfl, hcalm⟩ | ⟨n, hn0, hn, hmax, rfl, rfl, rfl⟩
        · split
          · next ha => exact World.answered_interrupted w₁ ha
          · next ha =>
              have hfail : ¬ World.NeverFails ok := by
                intro hnever
                obtain ⟨hc, hroom⟩ := hnever _ _ _ hok
                exact ha (by rw [hcalm hc hne (hroom f hf)]; rfl)
              obtain ⟨hP, hG⟩ := h.refused data r hw₁ (by
                intro n hn
                rcases hr with rfl | rfl <;> cases hn)
              refine ⟨hG, ?_⟩
              rcases hr with rfl | rfl
              · exact ⟨0, by omega, by simpa using hP, Or.inr ⟨rfl, hfail⟩⟩
              · exact ⟨0, by omega, by simpa using hP, Or.inr ⟨rfl, hfail⟩⟩
        · obtain ⟨hP, hG⟩ := h.wrote data hw₁ hf hn (by omega) _ rfl
          refine ⟨hG, ?_⟩
          refine (ih (data.drop n) (by rw [List.length_drop]; omega) hP).imp ?_
          rintro status w' ⟨m, hm, hP', hanswer⟩
          rw [List.length_drop] at hm hanswer
          refine ⟨n + m, by omega, by rwa [List.append_assoc, ← List.take_add] at hP', ?_⟩
          rcases hanswer with ⟨rfl, hall⟩ | hio
          · exact Or.inl ⟨rfl, by omega⟩
          · exact Or.inr hio

/-- `WriteAll` appends all of `data`, or a part of it when it reports an error. -/
theorem writeAll_safe {P : Bytes → World B β → Prop} {fd : ℕ} (h : Appends R G P fd)
    {data d : Bytes} {w : World B β} (hw : P d w) :
    (writeAll fd data).Safe ((World.handler me hB).sem ok) R G
      (fun status w' => (status = .Ok ∧ P (d ++ data) w') ∨
        (status.code = .kIoError ∧ ¬ World.NeverFails ok ∧
          ∃ n ≤ data.length, P (d ++ data.take n) w')) w := by
  refine (writeAllLoop_safe h data.length data le_rfl hw).imp ?_
  rintro status w' ⟨n, hn, hP, ⟨rfl, rfl⟩ | ⟨hio, hfail⟩⟩
  · exact Or.inl ⟨rfl, by simpa using hP⟩
  · exact Or.inr ⟨hio, hfail, n, hn, hP⟩

end WriteAll

/-! ## The receive loop -/

variable {input : ChunkInputStream σ} {output : ChunkOutputStream τ} {me : ℕ}
  {ok : (op : StoreSig.Op) → StoreWorld σ τ → Outcome → Prop}
  {R G : StoreWorld σ τ → StoreWorld σ τ → Prop}

/-- `P d` knows that the temporary file holds `d`, keeps up with writes and stream calls, and
    nobody else moves the streams. -/
structure Fills (R G : StoreWorld σ τ → StoreWorld σ τ → Prop)
    (P : Bytes → StoreWorld σ τ → Prop) (fd : ℕ) : Prop extends Appends R G P fd where
  rest : ∀ {w w'}, R w w' → w'.rest = w.rest
  read : ∀ {d w} (size : ℕ) (r : StatusOr Bytes) (rest : σ × τ), P d w →
    P d (w.replied (.read size) r rest) ∧ G w (w.replied (.read size) r rest)

/-- Writing leaves the streams where they are. -/
theorem Fills.appends_rest {P : Bytes → StoreWorld σ τ → Prop} {fd : ℕ} (h : Fills R G P fd)
    (rest : σ × τ) : Appends R G (fun d w => P d w ∧ w.rest = rest) fd where
  env hw hR := ⟨h.env hw.1 hR, (h.rest hR).trans hw.2⟩
  opened hw := h.opened hw.1
  wrote data hw hf hn hmax w' hw' := by
    obtain ⟨hP, hG⟩ := h.wrote data hw.1 hf hn hmax w' hw'
    exact ⟨⟨hP, by rw [hw']; exact hw.2⟩, hG⟩
  refused data r hw hr := by
    obtain ⟨hP, hG⟩ := h.refused data r hw.1 hr
    exact ⟨⟨hP, hw.2⟩, hG⟩

/-- How the receive loop ends after `p` arrived on top of what the hasher had seen. -/
def ReceiveAnswer (ok : (op : StoreSig.Op) → StoreWorld σ τ → Outcome → Prop) (B : Blake3)
    (hasher : B.Hasher) (received : UInt64) (delivery : Delivery) (p : Bytes)
    (r : Except Status (B.Hasher × UInt64)) : Prop :=
  (delivery = .complete p ∧ r = .ok (B.update hasher p, received + UInt64.ofNat p.length)) ∨
    (∃ status, delivery = .failed status ∧ r = .error status) ∨
    (∃ status, delivery = .excess ∧ r = .error status ∧ status.code = .kCorruption) ∨
    ∃ status, r = .error status ∧ status.code = .kIoError ∧ ¬ World.NeverFails ok

/-- The first block and what follows it. -/
theorem ReceiveAnswer.after {B : Blake3} {hasher : B.Hasher} {received : UInt64}
    {delivery : Delivery} {bytes p : Bytes} {r : Except Status (B.Hasher × UInt64)}
    (h : ReceiveAnswer ok B (B.update hasher bytes) (received + UInt64.ofNat bytes.length)
      delivery p r) :
    ReceiveAnswer ok B hasher received (delivery.after bytes) (bytes ++ p) r := by
  rcases h with ⟨rfl, rfl⟩ | ⟨status, rfl, rfl⟩ | ⟨status, rfl, rfl, hc⟩ | hio
  · refine Or.inl ⟨rfl, ?_⟩
    rw [B.update_append, List.length_append, UInt64.ofNat_add, UInt64.add_assoc]
  · exact Or.inr (Or.inl ⟨status, rfl, rfl⟩)
  · exact Or.inr (Or.inr (Or.inl ⟨status, rfl, rfl, hc⟩))
  · exact Or.inr (Or.inr (Or.inr hio))

/-- The three tests of a block, over the unbounded integers. -/
theorem block_too_long_iff {received expected : UInt64} {n : ℕ}
    (h : received.toNat ≤ expected.toNat) :
    (n > kBufferSize ∨ received > expected ∨ UInt64.ofNat n > expected - received) ↔
      (n > kBufferSize ∨ n > expected.toNat - received.toNat) := by
  have hnot : ¬ received > expected := Nat.not_lt.2 h
  have hsub : (expected - received).toNat = expected.toNat - received.toNat :=
    UInt64.toNat_sub_of_le _ _ h
  by_cases hbuf : n > kBufferSize
  · simp only [hbuf, true_or]
  · have hn : (UInt64.ofNat n).toNat = n := by
      rw [UInt64.toNat_ofNat']
      simp only [kBufferSize] at hbuf
      omega
    have hlt : UInt64.ofNat n > expected - received ↔ n > expected.toNat - received.toNat := by
      rw [gt_iff_lt, UInt64.lt_iff_toNat_lt, hn, hsub]
    simp only [hbuf, hnot, false_or, hlt]

/-- **The receive loop** writes and hashes what the stream delivers, and stops where the stream
    ends, fails or brings too much. -/
theorem receive_safe (B : Blake3) (request : PutChunkRequest) {P : Bytes → StoreWorld σ τ → Prop}
    {fd : ℕ} (h : Fills R G P fd) (rounds : ℕ) {hasher : B.Hasher} {received : UInt64}
    (hreceived : received.toNat ≤ request.expectedSize.toNat)
    (hrounds : request.expectedSize.toNat - received.toNat < rounds)
    {d : Bytes} {w : StoreWorld σ τ} (hw : P d w) :
    (receive B request fd rounds hasher received).Safe
      ((World.handler me (streams input output)).sem ok) R G
      (fun r w' => ∃ p,
        ReceiveAnswer ok B hasher received
          (deliver input (request.expectedSize.toNat - received.toNat) w.rest.1) p r ∧
        ∃ d', P d' w' ∧ (r.toBool = true → d' = d ++ p)) w := by
  induction rounds generalizing hasher received d w with
  | zero => omega
  | succ rounds ih =>
      unfold receive
      refine safe_perform.2 fun w₁ hR r w₂ hH => ?_
      obtain ⟨hreply, rfl⟩ := World.sem_other hH
      have hw₁ := h.env hw hR
      have hrest := h.rest hR
      obtain ⟨hP, hG⟩ := h.read kBufferSize r
        (streams input output (.read kBufferSize) w₁.rest).2 hw₁
      refine ⟨hG, ?_⟩
      rw [hrest] at hreply
      have hread : input w.rest.1 kBufferSize = (r, (input w.rest.1 kBufferSize).2) := by
        rw [hreply]
        rfl
      cases r with
      | error e =>
          refine ⟨[], Or.inr (Or.inl ⟨e.1, deliver_failed hread, rfl⟩), d, hP, ?_⟩
          intro hbool
          exact absurd hbool (by simp [Except.toBool])
      | ok bytes =>
          by_cases h0 : bytes.length = 0
          · simp only [h0, if_true]
            refine ⟨[], Or.inl ⟨deliver_ended hread h0, ?_⟩, d, hP, fun _ => by simp⟩
            rw [B.update_nil]
            simp
          · simp only [h0, if_false]
            by_cases hbig : bytes.length > kBufferSize ∨ received > request.expectedSize ∨
                UInt64.ofNat bytes.length > request.expectedSize - received
            · simp only [if_pos hbig]
              rw [block_too_long_iff hreceived] at hbig
              refine ⟨[], Or.inr (Or.inr (Or.inl ⟨_, deliver_excess hread h0 hbig, rfl, rfl⟩)), d,
                hP, ?_⟩
              intro hbool
              exact absurd hbool (by simp [Except.toBool])
            · simp only [if_neg hbig]
              rw [block_too_long_iff hreceived] at hbig
              rw [deliver_more hread h0 hbig]
              have hlt := request.expectedSize.toNat_lt
              have hadd : (received + UInt64.ofNat bytes.length).toNat
                  = received.toNat + bytes.length := by
                rw [UInt64.toNat_add, UInt64.toNat_ofNat']
                omega
              refine safe_bind.2 ((writeAll_safe (h.appends_rest _) (And.intro hP rfl)).imp ?_)
              rintro status w' (⟨rfl, hP', hrest'⟩ | ⟨hio, hfail, n, hn, hP', -⟩)
              · refine (ih (by rw [hadd]; omega) (by rw [hadd]; omega) hP').imp ?_
                rintro r w'' ⟨p, hanswer, d', hP'', hd'⟩
                refine ⟨bytes ++ p, ?_, d', hP'', fun hbool => by rw [hd' hbool, List.append_assoc]⟩
                have hs : w'.rest.1 = (input w.rest.1 kBufferSize).2 := by
                  rw [hrest', hrest]
                  rfl
                rw [hs, hadd, ← Nat.sub_sub] at hanswer
                exact hanswer.after
              · have hno : status.ok = false := by simp [Status.ok, hio]
                simp only [hno, Bool.not_false, if_true]
                refine ⟨[], Or.inr (Or.inr (Or.inr ⟨status, rfl, hio, hfail⟩)), _, hP', ?_⟩
                intro hbool
                exact absurd hbool (by simp [Except.toBool])

/-! ## The checks of `Put` -/

/-- The size and the checksum of the request are those of the payload. -/
def Matches (B : Blake3) (request : PutChunkRequest) (p : Bytes) : Prop :=
  p.length = request.expectedSize.toNat ∧ B.hex p = request.expectedChecksum.value

/-- The chunk file of a payload. -/
def chunkFile (B : Blake3) (p : Bytes) : Bytes :=
  makeHeader (UInt64.ofNat p.length) (B.checksum p) ++ p

theorem chunkFile_spec (B : Blake3) (p : Bytes) : ChunkFile (B.checksum p) p (chunkFile B p) :=
  ⟨B.wellFormed_checksum p, rfl⟩

theorem Matches.checksum_eq {B : Blake3} {request : PutChunkRequest} {p : Bytes}
    (h : Matches B request p) : request.expectedChecksum = B.checksum p := by
  obtain ⟨id, size, ⟨⟩, value⟩ := request
  exact congrArg (Checksum.mk .kBlake3) h.2.symm

/-- The file `Put` writes for an accepted payload. -/
theorem Matches.chunkFile_eq {B : Blake3} {request : PutChunkRequest} {p : Bytes}
    (h : Matches B request p) :
    makeHeader request.expectedSize request.expectedChecksum ++ p = chunkFile B p := by
  have hsize : request.expectedSize = UInt64.ofNat p.length := by rw [h.1, UInt64.ofNat_toNat]
  rw [chunkFile, hsize, h.checksum_eq]

/-- The stream delivers the payload the request announces. -/
def Accepts (B : Blake3) (input : ChunkInputStream σ) (s : σ) (request : PutChunkRequest)
    (p : Bytes) : Prop :=
  Delivers input s p ∧ Matches B request p

/-- The status with which the checks of `Put` turn a stream down: its own if a read fails, else
    corruption. -/
def Rejects (B : Blake3) (input : ChunkInputStream σ) (s : σ) (request : PutChunkRequest)
    (status : Status) : Prop :=
  match deliver input request.expectedSize.toNat s with
  | .failed own => status = own
  | .excess => status.code = .kCorruption
  | .complete p => ¬ Matches B request p ∧ status.code = .kCorruption

/-- What `fill` needs of the file beyond `Fills`: `Q d` is `P d` once the file is synced. -/
structure Syncs (R G : StoreWorld σ τ → StoreWorld σ τ → Prop)
    (P Q : Bytes → StoreWorld σ τ → Prop) (fd : ℕ) : Prop extends Fills R G P fd where
  synced : ∀ {d w f}, P d w → w.fds[fd]? = some f →
    ∀ w', w' = w.answered (.fdatasync fd) (.ok ()) w.fds (w.fs.modify f.ino Inode.sync) →
      Q d w' ∧ G w w'
  unsynced : ∀ {d w} (e : Errno), P d w →
    P d (w.answered (.fdatasync fd) (.error e) w.fds w.fs) ∧
      G w (w.answered (.fdatasync fd) (.error e) w.fds w.fs)

/-- How filling the file ends: it is synced and holds the header and the accepted payload, or an
    error is returned that the stream or a failed call explains. -/
def FillAnswer (ok : (op : StoreSig.Op) → StoreWorld σ τ → Outcome → Prop) (B : Blake3)
    (input : ChunkInputStream σ) (s : σ) (request : PutChunkRequest)
    (P Q : Bytes → StoreWorld σ τ → Prop) (r : Except Status Unit) (w : StoreWorld σ τ) : Prop :=
  (∃ p, r = .ok () ∧ Accepts B input s request p ∧
      Q (makeHeader request.expectedSize request.expectedChecksum ++ p) w) ∨
    ∃ status, r = .error status ∧ (∃ d, P d w) ∧
      (Rejects B input s request status ∨ (status.code = .kIoError ∧ ¬ World.NeverFails ok))

theorem fill_safe (B : Blake3) (request : PutChunkRequest) {temp : Path}
    {P Q : Bytes → StoreWorld σ τ → Prop} {fd : ℕ} (h : Syncs R G P Q fd) {w : StoreWorld σ τ}
    (hw : P [] w) :
    (fill B request temp fd).Safe ((World.handler me (streams input output)).sem ok) R G
      (FillAnswer ok B input w.rest.1 request P Q) w := by
  unfold fill
  refine safe_bind.2 ((writeAll_safe (h.appends_rest w.rest) (And.intro hw rfl)).imp ?_)
  rintro status w' (⟨rfl, hP, hrest⟩ | ⟨hio, hfail, n, -, hP, -⟩)
  · rw [List.nil_append] at hP
    have hzero : (0 : UInt64).toNat = 0 := rfl
    refine safe_bind.2 ((receive_safe B request h.toFills (request.expectedSize.toNat + 1)
      (by omega) (by omega) hP).imp ?_)
    rintro r w'' ⟨p, hanswer, d, hP', hd⟩
    rw [hrest, hzero, Nat.sub_zero] at hanswer
    rcases hanswer with ⟨hdel, rfl⟩ | ⟨status, hdel, rfl⟩ | ⟨status, hdel, rfl, hc⟩ |
      ⟨status, rfl, hio, hfail⟩
    · obtain rfl := hd rfl
      obtain ⟨hdelivers, hle⟩ := deliver_complete_iff.1 hdel
      have hcount : (0 : UInt64) + UInt64.ofNat p.length = request.expectedSize ↔
          p.length = request.expectedSize.toNat := by
        rw [UInt64.zero_add, ← UInt64.toNat_inj, UInt64.toNat_ofNat']
        have := request.expectedSize.toNat_lt
        omega
      have corrupt : ∀ message, ¬ Matches B request p →
          FillAnswer ok B input w.rest.1 request P Q (.error (.of .kCorruption message)) w'' :=
        fun message hbad => Or.inr ⟨_, rfl, ⟨_, hP'⟩, Or.inl (by
          rw [Rejects, hdel]
          exact ⟨hbad, rfl⟩)⟩
      by_cases hlen : p.length = request.expectedSize.toNat
      · simp only [hcount.2 hlen, ne_eq, not_true_eq_false, if_false]
        by_cases hhex : finalizeHex B (B.update B.init p) = request.expectedChecksum.value
        · rw [if_neg (not_not.2 hhex)]
          refine safe_perform.2 fun w₁ hR r w₂ hH => ?_
          obtain ⟨o, fds', fs', hok, hexec, rfl⟩ := World.sem_sys hH
          have hw₁ := h.env hP' hR
          obtain ⟨f, hf, -⟩ := h.opened hw₁
          obtain ⟨rfl, ⟨e, rfl, rfl, hfail⟩ | ⟨rfl, rfl⟩⟩ := fdatasync_cases hf hexec
          · obtain ⟨hP'', hG⟩ := h.unsynced e hw₁
            refine ⟨hG, Or.inr ⟨_, rfl, ⟨_, hP''⟩, Or.inr ⟨rfl, fun hnever => ?_⟩⟩⟩
            exact hfail (hnever _ _ _ hok).1
          · obtain ⟨hQ, hG⟩ := h.synced hw₁ hf _ rfl
            exact ⟨hG, Or.inl ⟨p, rfl, ⟨hdelivers, hlen, hhex⟩, hQ⟩⟩
        · rw [if_pos hhex]
          exact corrupt _ fun hm => hhex hm.2
      · have hne : (0 : UInt64) + UInt64.ofNat p.length ≠ request.expectedSize := fun heq =>
          hlen (hcount.1 heq)
        simp only [if_pos hne]
        exact corrupt _ fun hm => hlen hm.1
    · refine Or.inr ⟨status, rfl, ⟨_, hP'⟩, Or.inl ?_⟩
      rw [Rejects, hdel]
    · refine Or.inr ⟨status, rfl, ⟨_, hP'⟩, Or.inl ?_⟩
      rw [Rejects, hdel]
      exact hc
    · exact Or.inr ⟨status, rfl, ⟨_, hP'⟩, Or.inr ⟨hio, hfail⟩⟩
  · have hno : status.ok = false := by simp [Status.ok, hio]
    simp only [hno, Bool.not_false, if_true]
    exact Or.inr ⟨status, rfl, ⟨_, hP⟩, Or.inr ⟨hio, hfail⟩⟩

/-- A stream fails with an error only. -/
theorem deliver_failed_not_ok {input : ChunkInputStream σ} {limit : ℕ} {s : σ} {own : Status}
    (h : deliver input limit s = .failed own) : own.ok = false := by
  induction limit using Nat.strong_induction_on generalizing s with
  | _ limit ih =>
      rcases hread : input s kBufferSize with ⟨e | bytes, s'⟩
      · rw [deliver_failed hread] at h
        exact Delivery.failed.inj h ▸ e.2
      · by_cases h0 : bytes.length = 0
        · rw [deliver_ended hread h0] at h
          exact absurd h (by simp)
        · by_cases hbig : bytes.length > kBufferSize ∨ bytes.length > limit
          · rw [deliver_excess hread h0 hbig] at h
            exact absurd h (by simp)
          · rw [deliver_more hread h0 hbig] at h
            refine ih (limit - bytes.length) (by omega) (s := s') ?_
            cases hd : deliver input (limit - bytes.length) s' with
            | complete p => simp [hd, Delivery.after] at h
            | failed status => simpa [hd, Delivery.after] using h
            | excess => simp [hd, Delivery.after] at h

/-- The checks never turn a stream down with an OK status. -/
theorem Rejects.not_ok {B : Blake3} {input : ChunkInputStream σ} {s : σ} {request : PutChunkRequest}
    {status : Status} (h : Rejects B input s request status) : status.ok = false := by
  unfold Rejects at h
  cases hd : deliver input request.expectedSize.toNat s with
  | failed own =>
      simp only [hd] at h
      exact h ▸ deliver_failed_not_ok hd
  | excess =>
      simp only [hd] at h
      simp [Status.ok, h]
  | complete p =>
      simp only [hd] at h
      simp [Status.ok, h.2]

/-- The checks either accept a stream or turn it down. -/
theorem not_rejects_of_accepts {B : Blake3} {s : σ} {request : PutChunkRequest} {p : Bytes}
    {status : Status} (h : Accepts B input s request p) : ¬ Rejects B input s request status := by
  have hdel := deliver_complete_iff.2 ⟨h.1, le_of_eq h.2.1⟩
  rw [Rejects, hdel]
  exact fun hr => hr.1 h.2

end ChunkStorage
