import Neug.Transaction.WalFile

/-! Running `LocalWalParser::open`: what a loop over any file keeps, and that over the file of
a `LocalWalWriter` it enters the writer's records in their order. -/
namespace Neug.Wal
open Neug.Lib List Option

theorem length_encode (r : Record) : r.encode.length = headerSize + r.payload.length := by
  simp only [Record.encode, length_append, length_leBytes, headerSize]

theorem written_foldl (log : List Record) (f : WalFile) :
    (log.foldl (fun f r => f.append r.encode) f).written =
      f.written ++ log.flatMap Record.encode := by
  induction log generalizing f with
  | nil => simp
  | cons r log ih =>
    rw [foldl_cons, ih, flatMap_cons, WalFile.append, append_assoc]

theorem logFile_written (log : List Record) : (logFile log).written = log.flatMap Record.encode :=
  written_foldl log WalFile.fresh

theorem size_le_grownSize (size expected : ℕ) : size ≤ WalFile.grownSize size expected := by
  rcases lt_or_ge size expected with h | h
  · exact h.le.trans (WalFile.le_grownSize size expected)
  · rw [WalFile.grownSize, if_neg (not_lt.mpr h)]

theorem size_le_foldl (log : List Record) (f : WalFile) :
    f.size ≤ (log.foldl (fun f r => f.append r.encode) f).size := by
  induction log generalizing f with
  | nil => exact le_rfl
  | cons r log ih => exact (size_le_grownSize _ _).trans (ih (f.append r.encode))

theorem logFile_size_ne_zero (log : List Record) : (logFile log).size ≠ 0 := by
  have h : truncSize ≤ (logFile log).size := size_le_foldl log WalFile.fresh
  have hpos : 0 < truncSize := by decide
  omega

section

variable {f : WalFile} {before mid after : Bytes}

theorem slice_append (h : f.written = before ++ mid ++ after) :
    f.slice before.length mid.length = some mid := by
  have hfits := f.fits
  rw [h] at hfits
  simp only [length_append] at hfits
  rw [WalFile.slice, if_pos (by omega), some_inj]
  apply ext_getElem
  · simp
  · intro i _ hi
    simp only [getElem_map, getElem_range, h, append_assoc]
    rw [getD_append_right _ _ _ _ (Nat.le_add_right _ _), Nat.add_sub_cancel_left,
      getD_append _ _ _ _ hi, getD_eq_getElem _ _ hi]

theorem word_append (v : ℕ) (h : f.written = before ++ leBytes 4 v ++ after)
    (hv : v < 2 ^ 32) : f.word before.length = some v := by
  have hs := slice_append h
  rw [length_leBytes] at hs
  rw [WalFile.word, hs, map_some, leValue_leBytes, Nat.mod_eq_of_lt (hv.trans_eq (by norm_num))]

theorem leValue_zeros (n : ℕ) : leValue (replicate n 0) = 0 := by
  induction n with
  | zero => rfl
  | succ n ih => rw [replicate_succ, leValue, ih]; rfl

theorem word_end (f : WalFile) :
    f.word f.written.length = if f.written.length + 4 ≤ f.size then some 0 else none := by
  unfold WalFile.word WalFile.slice
  split_ifs with h
  · have hzero : (range 4).map (fun i => f.written.getD (f.written.length + i) 0) =
        replicate 4 0 := by
      apply eq_replicate_iff.mpr
      refine ⟨by simp only [length_map, length_range], ?_⟩
      intro b hb
      obtain ⟨i, -, rfl⟩ := mem_map.mp hb
      exact getD_eq_default _ _ (Nat.le_add_right _ _)
    rw [hzero, map_some, leValue_zeros]
  · rfl

theorem word_lt {offset w : ℕ} (h : f.word offset = some w) : w < 2 ^ 32 := by
  unfold WalFile.word WalFile.slice at h
  split_ifs at h with hin
  · obtain ⟨bs, hbs, rfl⟩ := map_eq_some_iff.mp h
    rw [← some_inj.mp hbs]
    refine (leValue_lt _).trans_eq ?_
    norm_num
  · cases h

theorem packWord_lt (type : Bool) (n : ℕ) : packWord type n < 2 ^ 32 := by
  have htype : type.toNat ≤ 1 := Bool.toNat_le type
  unfold packWord
  omega

theorem packWord_type (type : Bool) (n : ℕ) : decide (packWord type n % 2 = 1) = type := by
  cases type with
  | false => simp [packWord]
  | true => simp [packWord]

theorem lengthField_packWord (type : Bool) {n : ℕ} (hn : n < 2 ^ 30) :
    lengthField (packWord type n) = n := by
  have htype : type.toNat ≤ 1 := Bool.toNat_le type
  have hdiv : packWord type n / 2 = n := by
    unfold packWord
    omega
  rw [lengthField, hdiv, if_pos hn]

theorem lengthField_range {w : ℕ} (hw : w < 2 ^ 32) :
    -2 ^ 30 ≤ lengthField w ∧ lengthField w < 2 ^ 30 := by
  unfold lengthField
  split_ifs with h <;> omega

end

section

variable {f : WalFile} {i fuel : ℕ} {p q : LocalWalParser}

abbrev Placed := Record × ℕ × ℕ

/-- Where the payloads lie of records that start at an offset of file `i`. -/
def placed (i : ℕ) : ℕ → List Record → List Placed
  | _, [] => []
  | offset, r :: log =>
    (r, i, offset + headerSize) :: placed i (offset + headerSize + r.payload.length) log

/-- The same for all files, numbered from `i`. -/
def placedAll : ℕ → List (List Record) → List Placed
  | _, [] => []
  | i, log :: logs => placed i 0 log ++ placedAll (i + 1) logs

def enterAll (p : LocalWalParser) (ds : List Placed) : Option LocalWalParser :=
  ds.foldlM (fun p d => p.enter d.1.timestamp d.1.type d.1.payload.length d.2) p

def Terminated (f : WalFile) : Prop := f.written.length + 4 ≤ f.size

instance (f : WalFile) : Decidable (Terminated f) :=
  inferInstanceAs (Decidable (f.written.length + 4 ≤ f.size))

theorem enterAll_append (p : LocalWalParser) (ds es : List Placed) :
    enterAll p (ds ++ es) = (enterAll p ds).bind fun q => enterAll q es :=
  foldlM_append

theorem parseFile_mono {fuel' offset : ℕ} (hle : fuel ≤ fuel')
    (h : LocalWalParser.parseFile i f fuel offset p = some q) :
    LocalWalParser.parseFile i f fuel' offset p = some q := by
  induction fuel generalizing fuel' offset p with
  | zero => exact absurd h (by simp [LocalWalParser.parseFile])
  | succ fuel ih =>
    obtain ⟨k, rfl⟩ : ∃ k, fuel' = k + 1 := ⟨fuel' - 1, by omega⟩
    rw [LocalWalParser.parseFile] at h ⊢
    obtain ⟨ts, hts, h⟩ := bind_eq_some_iff.mp h
    rw [hts, bind_some]
    by_cases hzero : ts = 0
    · rw [if_pos hzero] at h ⊢
      exact h
    · rw [if_neg hzero] at h ⊢
      obtain ⟨w, hw, h⟩ := bind_eq_some_iff.mp h
      obtain ⟨p', hp', h⟩ := bind_eq_some_iff.mp h
      rw [hw, bind_some]
      dsimp only at h ⊢
      rw [hp']
      split_ifs at h ⊢ with hneg
      exact ih (by omega) h

/-- The loop over a file enters the records one by one and then looks for the zero. -/
theorem parseFile_eq {log : List Record} {before : Bytes}
    (hsmall : ∀ r ∈ log, r.payload.length < 2 ^ 30)
    (hw : f.written = before ++ log.flatMap Record.encode) (hfuel : log.length < fuel) :
    LocalWalParser.parseFile i f fuel before.length p =
      (enterAll p (placed i before.length log)).bind fun q =>
        if Terminated f then some q else none := by
  induction log generalizing fuel before p with
  | nil =>
    obtain ⟨k, rfl⟩ : ∃ k, fuel = k + 1 := ⟨fuel - 1, by simp at hfuel; omega⟩
    rw [flatMap_nil, append_nil] at hw
    rw [LocalWalParser.parseFile, ← hw, word_end]
    change _ = if Terminated f then some p else none
    by_cases hend : Terminated f
    · rw [if_pos hend, if_pos (show _ + 4 ≤ _ from hend), bind_some, if_pos rfl]
    · rw [if_neg hend, if_neg (show ¬_ + 4 ≤ _ from hend), bind_none]
  | cons r log ih =>
    obtain ⟨k, rfl⟩ : ∃ k, fuel = k + 1 := ⟨fuel - 1, by omega⟩
    have hr : r.payload.length < 2 ^ 30 := hsmall r mem_cons_self
    have hts : f.word before.length = some r.timestamp := by
      apply word_append r.timestamp _ r.bounded
      · exact leBytes 4 (packWord r.type r.payload.length) ++ r.payload ++ log.flatMap Record.encode
      · rw [hw, flatMap_cons, Record.encode]
        simp
    have hword : f.word (before.length + 4) = some (packWord r.type r.payload.length) := by
      have hlen : before.length + 4 = (before ++ leBytes 4 r.timestamp).length := by
        rw [length_append, length_leBytes]
      rw [hlen]
      apply word_append _ _ (packWord_lt _ _)
      · exact r.payload ++ log.flatMap Record.encode
      · rw [hw, flatMap_cons, Record.encode]
        simp
    have hnext : ((before.length + headerSize : ℕ) + (r.payload.length : ℤ)).toNat =
        (before ++ r.encode).length := by
      rw [length_append, length_encode]
      omega
    have hrest : f.written = (before ++ r.encode) ++ log.flatMap Record.encode := by
      rw [hw, flatMap_cons, append_assoc]
    have hpos := r.pos
    rw [LocalWalParser.parseFile, hts, bind_some, if_neg (by omega), hword,
      bind_some, packWord_type, lengthField_packWord _ hr, placed, enterAll,
      foldlM_cons]
    simp only [bind_eq_bind, bind_assoc]
    congr 1
    funext p'
    rw [hnext,
      ih (fun s hs => hsmall s (mem_cons_of_mem _ hs)) hrest (by simpa using hfuel),
      length_append, length_encode, ← add_assoc]
    rfl

theorem parseFiles_eq {logs : List (List Record)}
    (hsmall : ∀ r ∈ logs.flatten, r.payload.length < 2 ^ 30)
    (hfuel : ∀ log ∈ logs, log.length < fuel) :
    LocalWalParser.parseFiles fuel i (logs.map logFile) p =
      (enterAll p (placedAll i logs)).bind fun q =>
        if ∀ log ∈ logs, Terminated (logFile log) then some q else none := by
  induction logs generalizing i p with
  | nil =>
    rfl
  | cons log logs ih =>
    have hfile : LocalWalParser.parseFile i (logFile log) fuel [].length p = _ :=
      parseFile_eq (fun r hr => hsmall r (mem_flatten.mpr ⟨log, mem_cons_self, hr⟩))
        (logFile_written log) (hfuel log mem_cons_self)
    have hrest (q : LocalWalParser) := ih (i := i + 1) (p := q)
      (fun r hr => hsmall r (by rw [flatten_cons]; exact mem_append_right _ hr))
      (fun l hl => hfuel l (mem_cons_of_mem _ hl))
    rw [length_nil] at hfile
    rw [map_cons, LocalWalParser.parseFiles, hfile, placedAll, enterAll_append,
      bind_assoc, bind_assoc]
    congr 1
    funext q
    by_cases hend : Terminated (logFile log)
    · rw [if_pos hend, bind_some, hrest]
      simp only [forall_mem_cons, hend, true_and]
    · rw [if_neg hend, bind_none]
      simp only [forall_mem_cons, hend, false_and, if_false, bind_fun_none]

theorem parseFiles_mono {files : List WalFile} {fuel' : ℕ} (hle : fuel ≤ fuel')
    (h : LocalWalParser.parseFiles fuel i files p = some q) :
    LocalWalParser.parseFiles fuel' i files p = some q := by
  induction files generalizing i p with
  | nil => exact h
  | cons f files ih =>
    obtain ⟨p', hp', h⟩ := bind_eq_some_iff.mp h
    exact bind_eq_some_iff.mpr ⟨p', parseFile_mono hle hp', ih h⟩

end

section

variable {f : WalFile} {i fuel : ℕ} {p q : LocalWalParser} {I : LocalWalParser → Prop}
  (henter : ∀ p p' ts w type ptr, I p → ts < 2 ^ 32 → w < 2 ^ 32 →
    LocalWalParser.enter p ts type (lengthField w) ptr = some p' → I p') (hI : I p)
include henter hI

theorem parseFile_invariant {offset : ℕ}
    (h : LocalWalParser.parseFile i f fuel offset p = some q) : I q := by
  induction fuel generalizing offset p with
  | zero => exact absurd h (by simp [LocalWalParser.parseFile])
  | succ fuel ih =>
    obtain ⟨ts, hts, h⟩ := bind_eq_some_iff.mp h
    by_cases hzero : ts = 0
    · rw [if_pos hzero, some_inj] at h
      exact h ▸ hI
    · rw [if_neg hzero] at h
      obtain ⟨w, hw, h⟩ := bind_eq_some_iff.mp h
      obtain ⟨p', hp', h⟩ := bind_eq_some_iff.mp h
      have hI' := henter p p' ts w _ _ hI (word_lt hts) (word_lt hw) hp'
      split_ifs at h with hneg
      exact ih hI' h

theorem parseFiles_invariant {files : List WalFile}
    (h : LocalWalParser.parseFiles fuel i files p = some q) : I q := by
  induction files generalizing i p with
  | nil => exact some_inj.mp h ▸ hI
  | cons f files ih =>
    obtain ⟨p', hp', h⟩ := bind_eq_some_iff.mp h
    exact ih (parseFile_invariant henter hI hp') h

end

end Neug.Wal
