import ChunkStorage.Header

set_option autoImplicit false

/-! # Reading a chunk file

`PreadSome`, `ReadHeader` and the loop of `Get` on a descriptor whose file does not change, with
any interference on everything else. What they need of the surroundings is an assertion that is
`Quiet`: it survives interference and calls that only look. The same lemmas then serve a call that
runs alone and one that runs among others. -/

namespace ChunkStorage

open Effects Posix Program

variable {σ τ : Type} {input : ChunkInputStream σ} {output : ChunkOutputStream τ} {me : ℕ}
  {ok : (op : StoreSig.Op) → StoreWorld σ τ → Outcome → Prop}
  {R G : StoreWorld σ τ → StoreWorld σ τ → Prop}

/-- `P` knows that the descriptor `fd` is open on a file with the contents `file`. -/
def Reads (P : StoreWorld σ τ → Prop) (fd : ℕ) (file : Bytes) : Prop :=
  ∀ w, P w → ∃ f i, w.fds[fd]? = some f ∧ w.fs.inodes[f.ino]? = some i ∧ i.data = file

theorem preadSome_safe {P : StoreWorld σ τ → Prop} (hq : World.Quiet R G P) {fd : ℕ}
    {file : Bytes} (hfile : Reads P fd file) {count : ℕ} {offset : UInt64}
    (hoffset : offset.toNat ≤ offMax) {w : StoreWorld σ τ} (hw : P w) :
    (preadSome fd count offset).Safe ((World.handler me (streams input output)).sem ok) R G
      (fun r w' => P w' ∧
        ((∃ n ≤ count, (0 < count → 0 < n) ∧ r = .ok ((file.drop offset.toNat).take n)) ∨
          ∃ s : ErrorStatus, r = .error s ∧ s.1.code = .kIoError ∧ ¬ World.NeverFails ok)) w := by
  unfold preadSome
  rw [if_neg (by omega)]
  refine safe_retrying.2 fun w₁ hR r w₂ hH => ?_
  obtain ⟨o, fds', fs', hok, hexec, rfl⟩ := World.sem_sys hH
  have hw₁ := hq.env hw hR
  obtain ⟨f, i, hf, hi, rfl⟩ := hfile w₁ hw₁
  obtain ⟨rfl, rfl, hcases⟩ := pread_cases hf hi hexec
  split
  · next ha => exact World.answered_interrupted w₁ ha
  · next ha =>
      obtain ⟨hP, hG⟩ := hq.looks (.pread fd count offset.toNat) r rfl hw₁
      refine ⟨hG, ?_⟩
      rcases hcases with ⟨e, rfl, he⟩ | ⟨n, hn, hpos, rfl⟩
      · refine ⟨hP, Or.inr ⟨_, rfl, rfl, fun hnever => ?_⟩⟩
        obtain rfl := he (hnever _ _ _ hok).1
        exact ha rfl
      · exact ⟨hP, Or.inl ⟨n, hn, hpos, rfl⟩⟩

/-- What `ReadHeader`'s loop leaves: the whole header, or that the file is too short for one. -/
theorem readHeaderLoop_safe {P : StoreWorld σ τ → Prop} (hq : World.Quiet R G P) {fd : ℕ}
    {file : Bytes} (hfile : Reads P fd file) (rounds : ℕ) {n : ℕ} (hn : n ≤ kHeaderSize)
    (hlen : n ≤ file.length) (hrounds : kHeaderSize ≤ n + rounds) {w : StoreWorld σ τ} (hw : P w) :
    (readHeaderLoop fd rounds (file.take n)).Safe
      ((World.handler me (streams input output)).sem ok) R G
      (fun r w' => P w' ∧
        ((r = .ok (file.take kHeaderSize) ∧ kHeaderSize ≤ file.length) ∨
          (∃ s : ErrorStatus, r = .error s ∧ s.1.code = .kCorruption ∧
            file.length < kHeaderSize) ∨
          ∃ s : ErrorStatus, r = .error s ∧ s.1.code = .kIoError ∧ ¬ World.NeverFails ok)) w := by
  induction rounds generalizing n w with
  | zero =>
      obtain rfl : n = kHeaderSize := by omega
      exact ⟨hw, Or.inl ⟨rfl, hlen⟩⟩
  | succ rounds ih =>
      have hread : (file.take n).length = n := by simp [hlen]
      unfold readHeaderLoop
      rw [hread]
      by_cases hlt : n < kHeaderSize
      · rw [if_pos hlt]
        have h80 := kHeaderSize_eq
        have hnat : (UInt64.ofNat n).toNat = n := by rw [UInt64.toNat_ofNat']; omega
        refine safe_bind.2 ((preadSome_safe hq hfile (by rw [hnat, offMax]; omega) hw).imp ?_)
        rintro r w' ⟨hw', ⟨m, hm, hpos, rfl⟩ | ⟨s, rfl, hs, hfail⟩⟩
        · rw [hnat]
          by_cases hend : ((file.drop n).take m).length = 0
          · simp only [hend, if_true]
            refine ⟨hw', Or.inr (Or.inl ⟨_, rfl, rfl, ?_⟩)⟩
            simp only [List.length_take, List.length_drop] at hend
            have := hpos (by omega)
            omega
          · simp only [hend, if_false]
            rw [← List.take_add]
            simp only [List.length_take, List.length_drop] at hend
            -- at the end of the file the piece may be shorter than `m`
            have htake : file.take (n + m) = file.take (min (n + m) file.length) := by
              rw [List.take_eq_take_iff]; omega
            rw [htake]
            exact ih (by omega) (by omega) (by omega) hw'
        · exact ⟨hw', Or.inr (Or.inr ⟨s, rfl, hs, hfail⟩)⟩
      · obtain rfl : n = kHeaderSize := by omega
        rw [if_neg hlt]
        exact ⟨hw, Or.inl ⟨rfl, hlen⟩⟩

/-- What `ReadHeader` says of a file: its size and checksum if it is a chunk file, corruption if
    it is not. -/
def HeaderAnswer (ok : (op : StoreSig.Op) → StoreWorld σ τ → Outcome → Prop) (chunkId : ChunkId)
    (file : Bytes) (r : StatusOr HeadChunkResponse) : Prop :=
  (∃ c p, ChunkFile c p file ∧ r = .ok ⟨chunkId, UInt64.ofNat p.length, c⟩) ∨
    ((¬ ∃ c p, ChunkFile c p file) ∧ ∃ s : ErrorStatus, r = .error s ∧ s.1.code = .kCorruption) ∨
    ∃ s : ErrorStatus, r = .error s ∧ s.1.code = .kIoError ∧ ¬ World.NeverFails ok

/-- The fields `ReadHeader` extracts are those of the file. -/
theorem header_fields (file : Bytes) :
    (file.take kHeaderSize).take kMagic.length = file.take 8 ∧
      leDecode (((file.take kHeaderSize).drop kMagic.length).take 8) = headerSize file ∧
      (⟨.kBlake3, ((file.take kHeaderSize).drop (kMagic.length + 8)).take kChecksumLength⟩
        : Checksum) = headerChecksum file := by
  refine ⟨?_, ?_, ?_⟩
  · rw [List.take_take]; rfl
  · rw [List.drop_take, List.take_take]; rfl
  · rw [List.drop_take, List.take_take]; rfl

theorem readHeader_safe {P : StoreWorld σ τ → Prop} (hq : World.Quiet R G P) {fd : ℕ}
    {file : Bytes} (hfile : Reads P fd file) (chunkId : ChunkId) {w : StoreWorld σ τ} (hw : P w) :
    (readHeader fd chunkId).Safe ((World.handler me (streams input output)).sem ok) R G
      (fun r w' => P w' ∧ HeaderAnswer ok chunkId file r) w := by
  have hlen : file.length ≤ offMax := by
    obtain ⟨f, i, -, -, rfl⟩ := hfile w hw
    exact i.data_le
  obtain ⟨hmagic, hsize, hchecksum⟩ := header_fields file
  have corrupt : ∀ {w' : StoreWorld σ τ} (message : Bytes), P w' → ¬ Readable file →
      P w' ∧ HeaderAnswer ok chunkId file (.ofStatus (.of .kCorruption message)) :=
    fun message hw' hbad =>
      ⟨hw', Or.inr (Or.inl ⟨fun h => hbad ((readable_iff hlen).2 h), _, rfl, rfl⟩)⟩
  unfold readHeader
  rw [← List.take_zero (l := file)]
  refine safe_bind.2 ((readHeaderLoop_safe hq hfile kHeaderSize (by omega) (by omega) (by omega)
    hw).imp ?_)
  rintro r w' ⟨hw', ⟨rfl, hfull⟩ | ⟨s, rfl, hs, hshort⟩ | ⟨s, rfl, hs, hfail⟩⟩
  · simp only [hmagic, hsize, hchecksum]
    by_cases hm : file.take 8 = kMagic
    · rw [if_neg (by simpa using hm)]
      by_cases hc : (headerChecksum file).WellFormed
      · have hvalid := (validateChecksum_ok _).2 hc
        rw [if_neg (by simp [hvalid])]
        refine safe_perform.2 fun w₁ hR r w₂ hH => ?_
        obtain ⟨o, fds', fs', hok, hexec, rfl⟩ := World.sem_sys hH
        have hw₁ := hq.env hw' hR
        obtain ⟨f, i, hf, hi, hdata⟩ := hfile w₁ hw₁
        obtain ⟨rfl, rfl, hcases⟩ := fstat_cases hf hi hexec
        obtain ⟨hP, hG⟩ := hq.looks (.fstat fd) r rfl hw₁
        refine ⟨hG, ?_⟩
        rcases hcases with ⟨e, rfl, he⟩ | rfl
        · exact ⟨hP, Or.inr (Or.inr ⟨_, rfl, rfl, fun hnever => he (hnever _ _ _ hok).1⟩)⟩
        · rw [hdata] at hP ⊢
          by_cases hmatch : headerSize file > UInt64.ofNat (2 ^ 64 - 1) - UInt64.ofNat kHeaderSize ∨
              UInt64.ofNat file.length ≠ headerSize file + UInt64.ofNat kHeaderSize
          · simp only [if_pos hmatch]
            refine corrupt _ hP fun hgood => ?_
            rcases hmatch with hbig | hne
            · exact hgood.size_le hbig
            · exact hne hgood.size_eq
          · simp only [if_neg hmatch]
            rw [not_or, not_not] at hmatch
            obtain ⟨c, p, h⟩ := (readable_iff hlen).1 ⟨hfull, hm, hc, hmatch.1, hmatch.2⟩
            refine ⟨hP, Or.inl ⟨c, p, h, ?_⟩⟩
            rw [h.headerSize, h.headerChecksum]
      · have hvalid : (validateChecksum (headerChecksum file)).ok = false := by
          simpa using fun h => hc ((validateChecksum_ok _).1 h)
        rw [if_pos (by simp [hvalid])]
        exact corrupt _ hw' fun hgood => hc hgood.checksum
    · rw [if_pos hm]
      exact corrupt _ hw' fun hgood => hm hgood.magic
  · refine ⟨hw', Or.inr (Or.inl ⟨fun h => ?_, s, rfl, hs⟩)⟩
    have := ((readable_iff hlen).2 h).complete
    omega
  · exact ⟨hw', Or.inr (Or.inr ⟨s, rfl, hs, hfail⟩)⟩

/-! ## The loop of `Get` -/

/-- The last call was one of the output stream, which took no block but answered `status`. -/
def Refused (output : ChunkOutputStream τ) (trace : List (Event StoreSig)) (status : Status) : Prop :=
  status.ok = false ∧ ∃ state data, (output state data).1 = status ∧
    trace.head? = some ⟨.inr (.write data), status⟩

/-- `P e` says that the bytes `e` were handed to the output so far, and keeps up with a further
    block. -/
def Hands (G : StoreWorld σ τ → StoreWorld σ τ → Prop) (P : Bytes → StoreWorld σ τ → Prop) : Prop :=
  ∀ {e w} (data : Bytes) (status : Status) (rest : σ × τ), P e w →
    P (e ++ data) (w.replied (.write data) status rest) ∧
      G w (w.replied (.write data) status rest)

/-- How the loop of `Get` ends after it handed out `n` of the `remaining` bytes at `offset`. -/
def LoopAnswer (ok : (op : StoreSig.Op) → StoreWorld σ τ → Outcome → Prop)
    (output : ChunkOutputStream τ) (file : Bytes) (remaining offset n : ℕ) (status : Status)
    (trace : List (Event StoreSig)) : Prop :=
  (status = .Ok ∧ n = remaining) ∨
    (status.code = .kCorruption ∧ n < remaining ∧ file.length ≤ offset + n) ∨
    (status.code = .kIoError ∧ ¬ World.NeverFails ok) ∨
    Refused output trace status

theorem toNat_sub_block {remaining : UInt64} {n : ℕ} (h : n ≤ remaining.toNat) :
    (remaining - UInt64.ofNat n).toNat = remaining.toNat - n := by
  have hn : (UInt64.ofNat n).toNat = n := by
    rw [UInt64.toNat_ofNat']
    have := remaining.toNat_lt
    omega
  rw [UInt64.toNat_sub_of_le _ _ (UInt64.le_iff_toNat_le.2 (by omega)), hn]

theorem toNat_add_block {offset : UInt64} {n : ℕ} (h : offset.toNat + n ≤ offMax) :
    (offset + UInt64.ofNat n).toNat = offset.toNat + n := by
  simp only [offMax] at h
  rw [UInt64.toNat_add, UInt64.toNat_ofNat']
  omega

/-- **The loop of `Get`** hands out consecutive bytes of the file it opened, as many as it was
    asked for unless the file ends, a call fails or the output refuses a block. -/
theorem getLoop_safe {P : Bytes → StoreWorld σ τ → Prop} (hq : ∀ e, World.Quiet R G (P e)) {fd : ℕ}
    {file : Bytes} (hfile : ∀ e, Reads (P e) fd file)
    (hout : Hands G P) (rounds : ℕ) {remaining offset : UInt64}
    (hrounds : remaining.toNat ≤ rounds) (hoffset : offset.toNat + remaining.toNat ≤ offMax)
    {e : Bytes} {w : StoreWorld σ τ} (hw : P e w) :
    (getLoop fd rounds remaining offset).Safe ((World.handler me (streams input output)).sem ok) R G
      (fun status w' => ∃ n ≤ remaining.toNat, P (e ++ (file.drop offset.toNat).take n) w' ∧
        (n = 0 ∨ offset.toNat + n ≤ file.length) ∧
        LoopAnswer ok output file remaining.toNat offset.toNat n status w'.trace) w := by
  induction rounds generalizing remaining offset e w with
  | zero => exact ⟨0, by omega, by simpa using hw, Or.inl rfl, Or.inl ⟨rfl, by omega⟩⟩
  | succ rounds ih =>
      unfold getLoop
      by_cases hpos : remaining > 0
      · have hrem : 0 < remaining.toNat := hpos
        rw [if_pos hpos]
        refine safe_bind.2 ((preadSome_safe (hq e) (hfile e) (by omega) hw).imp ?_)
        rintro r w' ⟨hw', ⟨m, hm, hmpos, rfl⟩ | ⟨s, rfl, hs, hfail⟩⟩
        · have hwanted : 0 < min remaining.toNat kBufferSize :=
            lt_min hrem (by simp [kBufferSize])
          have hmrem : m ≤ remaining.toNat := hm.trans (min_le_left _ _)
          have hm0 := hmpos hwanted
          by_cases hend : ((file.drop offset.toNat).take m).length = 0
          · simp only [hend, if_true]
            simp only [List.length_take, List.length_drop] at hend
            refine ⟨0, by omega, by simpa using hw', Or.inl rfl, Or.inr (Or.inl ⟨rfl, hrem, ?_⟩)⟩
            omega
          · simp only [hend, if_false]
            -- at the end of the file the block is shorter than `m`
            obtain ⟨k, hkm, hkfile, hk0, hblock⟩ : ∃ k ≤ m, offset.toNat + k ≤ file.length ∧ 0 < k ∧
                (file.drop offset.toNat).take m = (file.drop offset.toNat).take k := by
              simp only [List.length_take, List.length_drop] at hend
              refine ⟨min m (file.length - offset.toNat), by omega, by omega, by omega, ?_⟩
              rw [List.take_eq_take_iff, List.length_drop]
              omega
            have hklen : ((file.drop offset.toNat).take k).length = k := by
              simp only [List.length_take, List.length_drop]
              omega
            rw [hblock]
            refine safe_perform.2 fun w₁ hR status w₂ hH => ?_
            obtain ⟨hstatus, rfl⟩ := World.sem_other hH
            have hw₁ := (hq e).env hw' hR
            obtain ⟨hP, hG⟩ := hout ((file.drop offset.toNat).take k) status
              (streams input output (.write ((file.drop offset.toNat).take k)) w₁.rest).2 hw₁
            refine ⟨hG, ?_⟩
            by_cases hok : status.ok = true
            · simp only [hok, Bool.not_true, Bool.false_eq_true, if_false, hklen]
              have hsub := toNat_sub_block (show k ≤ remaining.toNat by omega)
              have hadd := toNat_add_block (show offset.toNat + k ≤ offMax by omega)
              refine (ih (by rw [hsub]; omega) (by rw [hsub, hadd]; omega) hP).imp ?_
              rintro st w'' ⟨n, hn, hP', hnfile, hanswer⟩
              rw [hsub] at hn hanswer
              rw [hadd] at hP' hnfile hanswer
              refine ⟨k + n, by omega, ?_, ?_, ?_⟩
              · rwa [List.append_assoc, ← List.drop_drop, ← List.take_add] at hP'
              · rcases hnfile with rfl | hnfile
                · exact Or.inr (by omega)
                · exact Or.inr (by omega)
              · rcases hanswer with ⟨rfl, rfl⟩ | ⟨hc, hlt, hle⟩ | hio | hrefused
                · exact Or.inl ⟨rfl, by omega⟩
                · exact Or.inr (Or.inl ⟨hc, by omega, by omega⟩)
                · exact Or.inr (Or.inr (Or.inl hio))
                · exact Or.inr (Or.inr (Or.inr hrefused))
            · have hno : status.ok = false := by simpa using hok
              simp only [hno, Bool.not_false, if_true]
              refine ⟨k, by omega, hP, Or.inr hkfile, Or.inr (Or.inr (Or.inr ⟨hno, ?_⟩))⟩
              exact ⟨w₁.rest.2, _, hstatus.symm, rfl⟩
        · exact ⟨0, by omega, by simpa using hw', Or.inl rfl,
            Or.inr (Or.inr (Or.inl ⟨hs, hfail⟩))⟩
      · have hzero : remaining.toNat = 0 := by
          have : ¬ 0 < remaining.toNat := hpos
          omega
        rw [if_neg hpos]
        exact ⟨0, by omega, by simpa using hw, Or.inl rfl, Or.inl ⟨rfl, by omega⟩⟩

end ChunkStorage
