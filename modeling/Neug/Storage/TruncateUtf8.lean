import Neug.Storage.StringRefinement

/-! `truncate_utf8` on arbitrary bytes and on UTF-8 text. -/
namespace Neug.Storage
open List

def encodeText (cs : List Char) : Str := cs.flatMap String.utf8EncodeChar

@[simp] theorem encodeText_nil : encodeText [] = [] := rfl

@[simp] theorem encodeText_cons (c : Char) (cs : List Char) :
    encodeText (c :: cs) = String.utf8EncodeChar c ++ encodeText cs := rfl

theorem encodeText_take_isPrefix (cs : List Char) (k : ℕ) :
    encodeText (cs.take k) <+: encodeText cs := by
  nth_rw 2 [← take_append_drop k cs]
  exact ⟨_, flatMap_append.symm⟩

/-- A walk over the characters comes to a byte that no character starts with, before a NUL and
within `room` bytes. -/
inductive Stuck : ℕ → Str → Prop where
  | here {room : ℕ} {ch : UInt8} {rest : Str} (hroom : 0 < room) (hch : charLength ch = 0) :
    Stuck room (ch :: rest)
  | next {room : ℕ} {ch : UInt8} {rest : Str} (hch : ch ≠ 0) (hpos : 0 < charLength ch)
    (hroom : charLength ch ≤ room)
    (h : Stuck (room - charLength ch) ((ch :: rest).drop (charLength ch))) : Stuck room (ch :: rest)

/-- `truncate_utf8` returns a prefix of at most `length` bytes. Of a text it is the longest one that
ends between characters. -/
def CutsAtCharacter (str : Str) (length : ℕ) : Prop :=
  ∃ v, truncateUtf8 str length = some v ∧ v <+: str ∧ v.length ≤ length ∧
    ∀ cs, str = encodeText cs → (∃ k, v = encodeText (cs.take k)) ∧
      ∀ k, (encodeText (cs.take k)).length ≤ length → (encodeText (cs.take k)).length ≤ v.length

variable {str : Str} {length fuel n : ℕ}

theorem truncateLoop_stay {ch : UInt8} (hget : str[n]? = some ch) (hch : charLength ch = 0)
    (hn : n < length) (fuel : ℕ) : truncateLoop str length fuel n = none := by
  have hzero : ch ≠ 0 := by
    rintro rfl
    contradiction
  induction fuel with
  | zero => rfl
  | succ fuel ih => simp [truncateLoop, hget, hch, hzero, hn.not_ge, hn.le, ih]

theorem truncateLoop_eq_none_iff (hn : n ≤ length) (hlen : length < str.length)
    (hfuel : length - n < fuel) :
    truncateLoop str length fuel n = none ↔ Stuck (length - n) (str.drop n) := by
  induction fuel generalizing n with
  | zero => omega
  | succ fuel ih =>
    have hlt : n < str.length := by omega
    obtain ⟨ch, hget, hdrop⟩ : ∃ ch, str[n]? = some ch ∧ str.drop n = ch :: str.drop (n + 1) :=
      ⟨_, getElem?_eq_getElem hlt, drop_eq_getElem_cons hlt⟩
    simp only [truncateLoop, hget, Option.bind_some]
    split_ifs with hstop hfit
    · refine iff_of_false (by simp) fun h => ?_
      rw [hdrop] at h
      cases h with
      | here hroom hch =>
        obtain rfl | hle := hstop
        · contradiction
        · omega
      | next hch hpos hroom h =>
        obtain rfl | hle := hstop
        · contradiction
        · omega
    · refine iff_of_false (by simp) fun h => ?_
      rw [hdrop] at h
      cases h with
      | here hroom hch => omega
      | next hch hpos hroom h => omega
    · push Not at hstop hfit
      rcases eq_zero_or_pos (charLength ch) with hch | hch
      · rw [hch, add_zero, truncateLoop_stay hget hch hstop.2, hdrop]
        exact iff_of_true rfl (.here (by omega) hch)
      · rw [ih (by omega) (by omega)]
        constructor
        · intro h
          rw [hdrop]
          refine .next hstop.1 hch (by omega) ?_
          rwa [← hdrop, drop_drop, Nat.sub_sub]
        · intro h
          rw [hdrop] at h
          cases h with
          | here hroom hzero => omega
          | next _ _ _ h => rwa [← hdrop, drop_drop, Nat.sub_sub] at h

theorem utf8EncodeChar_eq (c : Char) : ∃ ch rest, String.utf8EncodeChar c = ch :: rest ∧
    charLength ch = rest.length + 1 ∧ (0 : UInt8) ∉ rest := by
  have hcont : ∀ a < 64, 0 ≠ UInt8.ofNat a + 128 := by decide
  have htail (a : ℕ) : 0 ≠ UInt8.ofNat (a % 64) + 128 :=
    hcont _ (Nat.mod_lt _ (by decide))
  have hone : ∀ a < 128, charLength (UInt8.ofNat a) = 1 := by decide
  have htwo : ∀ a < 32, charLength (UInt8.ofNat (a + 192)) = 2 := by decide
  have hthree : ∀ a < 16, charLength (UInt8.ofNat (a + 224)) = 3 := by decide
  have hfour : ∀ a < 8, charLength (UInt8.ofNat (a + 240)) = 4 := by decide
  simp only [String.utf8EncodeChar]
  split_ifs with h1 h2 h3
  · exact ⟨_, _, rfl, hone _ (by omega), by simp⟩
  · exact ⟨_, _, rfl, htwo _ (Nat.mod_lt _ (by decide)), by simp [htail]⟩
  · exact ⟨_, _, rfl, hthree _ (Nat.mod_lt _ (by decide)), by simp [htail]⟩
  · exact ⟨_, _, rfl, hfour _ (Nat.mod_lt _ (by decide)), by simp [htail]⟩

/-- On a text the loop ends between characters, and at the last possible place unless a NUL stands
before it. -/
theorem truncateLoop_encode {cs : List Char} (hn : n ≤ length) (hlen : length < str.length)
    (hfuel : length - n < fuel) (hdrop : str.drop n = encodeText cs) :
    ∃ k, truncateLoop str length fuel n = some (n + (encodeText (cs.take k)).length) ∧
      ((∀ j, (encodeText (cs.take j)).length ≤ length - n →
          (encodeText (cs.take j)).length ≤ (encodeText (cs.take k)).length) ↔
        0 ∉ (encodeText cs).take (length - n)) := by
  induction cs generalizing fuel n with
  | nil =>
    have hend := congrArg List.length hdrop
    simp at hend
    omega
  | cons c cs ih =>
    obtain ⟨ch, rest, hc, hch, hrest⟩ := utf8EncodeChar_eq c
    obtain ⟨fuel, rfl⟩ : ∃ k, fuel = k + 1 := ⟨fuel - 1, by omega⟩
    have hcons : encodeText (c :: cs) = ch :: (rest ++ encodeText cs) := by simp [hc]
    have hget : str[n]? = some ch := by
      rw [← add_zero n, ← getElem?_drop, hdrop, hcons]
      rfl
    have hsucc (j : ℕ) : (encodeText ((c :: cs).take (j + 1))).length =
        charLength ch + (encodeText (cs.take j)).length := by
      simp [hc]
      omega
    simp only [truncateLoop, hget, Option.bind_some]
    split_ifs with hstop hfit
    · refine ⟨0, rfl, ?_⟩
      rcases hroom : length - n with _ | room
      · simp
      · obtain rfl : ch = 0 := hstop.resolve_right (by omega)
        refine iff_of_false (fun h => ?_) (by simp [hcons])
        have hlong := h 1
        rw [hsucc, show charLength 0 = 1 from rfl] at hlong
        simp at hlong
    · push Not at hstop
      refine ⟨0, rfl, iff_of_true (fun j hj => ?_) fun h => ?_⟩
      · cases j with
        | zero => exact le_rfl
        | succ j =>
          rw [hsucc] at hj
          omega
      · rw [hcons, ← cons_append, take_append_of_le_length (by simp; omega)] at h
        rcases mem_cons.mp (mem_of_mem_take h) with h | h
        · exact hstop.1 h.symm
        · exact hrest h
    · push Not at hstop hfit
      have htail : str.drop (n + charLength ch) = encodeText cs := by
        rw [← drop_drop, hdrop, hcons, ← cons_append, drop_left' (by simp [hch])]
      obtain ⟨k, hloop, hlongest⟩ := @ih fuel (n + charLength ch) (by omega) (by omega) htail
      refine ⟨k + 1, by rw [hloop, hsucc, add_assoc], ?_⟩
      have htake : (encodeText (c :: cs)).take (length - n) =
          ch :: rest ++ (encodeText cs).take (length - (n + charLength ch)) := by
        rw [hcons, ← cons_append, take_append, take_of_length_le (by simp; omega), length_cons,
          ← hch, Nat.sub_sub]
      have hhead : 0 ∉ ch :: rest := by simp [hrest, Ne.symm hstop.1]
      rw [htake, mem_append, or_iff_right hhead, ← hlongest, ← Nat.and_forall_add_one]
      simp only [hsucc]
      constructor
      · rintro ⟨-, h⟩ j hj
        have hle := h j
        omega
      · refine fun h => ⟨fun _ => by simp, fun j hj => ?_⟩
        have hle := h j
        omega

/-- Only strings longer than `length` are cut badly: if the walk gets stuck, and texts with a NUL
among their first `length` bytes. -/
theorem cutsAtCharacter_iff (str : Str) (length : ℕ) : CutsAtCharacter str length ↔
    str.length ≤ length ∨
      ¬ Stuck length str ∧ ((∃ cs, str = encodeText cs) → 0 ∉ str.take length) := by
  unfold CutsAtCharacter
  by_cases hle : str.length ≤ length
  · refine iff_of_true ⟨str, truncateUtf8_of_le hle, prefix_rfl, hle, ?_⟩ (.inl hle)
    rintro cs rfl
    exact ⟨⟨cs.length, by rw [take_length]⟩, fun k _ => (encodeText_take_isPrefix cs k).length_le⟩
  · have hlen : length < str.length := not_le.mp hle
    have hnone := truncateLoop_eq_none_iff (Nat.zero_le length) hlen (Nat.lt_succ_self length)
    have htext {cs : List Char} (hcs : str = encodeText cs) :=
      truncateLoop_encode (Nat.zero_le length) hlen (Nat.lt_succ_self length) hcs
    simp only [hle, false_or, truncateUtf8, if_false, Option.map_eq_some_iff]
    constructor
    · rintro ⟨v, ⟨n, hloop, rfl⟩, -, -, hcut⟩
      refine ⟨fun h => ?_, ?_⟩
      · rw [hnone.mpr h] at hloop
        cases hloop
      · rintro ⟨cs, hcs⟩
        obtain ⟨k, hk, hlongest⟩ := htext hcs
        have hn : n = (encodeText (cs.take k)).length := by simpa [hloop] using hk
        have hmax := (hcut cs hcs).2
        rw [hn, hcs, ← prefix_iff_eq_take.mp (encodeText_take_isPrefix cs k)] at hmax
        rw [hcs]
        exact hlongest.mp hmax
    · rintro ⟨hstuck, hnul⟩
      obtain ⟨n, hloop⟩ := Option.ne_none_iff_exists'.mp (mt hnone.mp hstuck)
      have hn : n ≤ length := truncateLoop_le hloop (Nat.zero_le length)
      refine ⟨_, ⟨n, hloop, rfl⟩, take_prefix _ _, (length_take_le _ _).trans hn, ?_⟩
      intro cs hcs
      obtain ⟨k, hk, hlongest⟩ := htext hcs
      have hn : n = (encodeText (cs.take k)).length := by simpa [hloop] using hk
      rw [hn, hcs, ← prefix_iff_eq_take.mp (encodeText_take_isPrefix cs k)]
      rw [hcs] at hnul
      exact ⟨⟨k, rfl⟩, hlongest.mpr (hnul ⟨cs, rfl⟩)⟩

/-- The loop does not end at a continuation byte, with any fuel. -/
theorem continuation_never_ends : ¬ CutsAtCharacter [0x80, 0x80] 1 ∧
    ¬ ∃ fuel n, truncateLoop [0x80, 0x80] 1 fuel 0 = some n := by
  have hstay (fuel : ℕ) : truncateLoop [0x80, 0x80] 1 fuel 0 = none :=
    truncateLoop_stay rfl rfl zero_lt_one fuel
  refine ⟨?_, ?_⟩
  · rintro ⟨v, hv, -⟩
    simp [truncateUtf8, hstay] at hv
  · rintro ⟨fuel, n, h⟩
    rw [hstay] at h
    cases h

end Neug.Storage
