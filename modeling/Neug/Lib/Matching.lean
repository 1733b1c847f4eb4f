import Mathlib

/-! Serving requests from a list of candidates. A request takes the first candidate that fits,
except that the last candidate left is taken without a look. -/
namespace Neug.Lib
open List Option

variable {ρ ι : Type}

def pick (fits : ι → Bool) : List ι → Option ι
  | [c] => some c
  | cs => cs.find? fits

variable {cs : List ι}

theorem pick_mem {fits : ι → Bool} {c : ι} (h : pick fits cs = some c) : c ∈ cs := by
  match cs, h with
  | [], h => simp [pick] at h
  | [d], h => simpa [pick, eq_comm] using h
  | d :: e :: rest, h => exact mem_of_find?_eq_some h

theorem pick_congr {f g : ι → Bool} (h : ∀ c ∈ cs, f c = g c) : pick f cs = pick g cs := by
  match cs, h with
  | [], _ => rfl
  | [d], _ => rfl
  | d :: e :: rest, h => exact find?_congr h

theorem pick_of_two {fits : ι → Bool} (h : 2 ≤ cs.length) : pick fits cs = cs.find? fits := by
  match cs, h with
  | _ :: _ :: _, _ => rfl

theorem find?_eq_some_iff_of_sorted {fits : ℕ → Bool} {cs : List ℕ} (h : cs.Pairwise (· < ·))
    {c : ℕ} : cs.find? fits = some c ↔
      c ∈ cs ∧ fits c = true ∧ ∀ d ∈ cs, d < c → fits d = false := by
  induction cs with
  | nil => simp
  | cons x cs ih =>
    obtain ⟨hx, hrest⟩ := pairwise_cons.mp h
    cases hfit : fits x with
    | true =>
      rw [find?_cons_of_pos hfit, some_inj]
      constructor
      · rintro rfl
        refine ⟨mem_cons_self, hfit, fun d hd hlt => ?_⟩
        rcases mem_cons.mp hd with rfl | hd
        · omega
        · have := hx d hd
          omega
      · rintro ⟨hc, -, hfirst⟩
        rcases mem_cons.mp hc with rfl | hc
        · rfl
        · have := hfirst x mem_cons_self (hx c hc)
          rw [hfit] at this
          cases this
    | false =>
      rw [find?_cons_of_neg (by simp [hfit]), ih hrest]
      constructor
      · rintro ⟨hc, hfits, hfirst⟩
        refine ⟨mem_cons_of_mem _ hc, hfits, fun d hd hlt => ?_⟩
        rcases mem_cons.mp hd with rfl | hd
        · exact hfit
        · exact hfirst d hd hlt
      · rintro ⟨hc, hfits, hfirst⟩
        refine ⟨(mem_cons.mp hc).resolve_left ?_, hfits,
          fun d hd => hfirst d (mem_cons_of_mem _ hd)⟩
        rintro rfl
        rw [hfit] at hfits
        cases hfits

/-- Among the same items in another order, every item finds itself by a partial equivalence
exactly if the relation is equality on them. -/
theorem find?_self_iff {α : Type} {r : α → α → Bool} (hsymm : ∀ a b, r a b → r b a)
    (htrans : ∀ a b c, r a b → r b c → r a c) {xs ys : List α} (hperm : xs.Perm ys) :
    (∀ x ∈ xs, ys.find? (fun y => r y x) = some x) ↔ ∀ x ∈ xs, ∀ y ∈ xs, r x y = true ↔ x = y := by
  constructor
  · intro hfind x hx y hy
    constructor
    · intro hxy
      -- related items have the same relatives, so they find the same one
      have hsame : (fun z => r z x) = fun z => r z y := by
        funext z
        exact Bool.eq_iff_iff.mpr ⟨fun hz => htrans z x y hz hxy,
          fun hz => htrans z y x hz (hsymm x y hxy)⟩
      have hx' := hfind x hx
      rw [hsame, hfind y hy] at hx'
      exact (some.inj hx').symm
    · rintro rfl
      exact find?_some (p := fun y => r y x) (hfind x hx)
  · intro heq x hx
    have hself := (heq x hx x hx).mpr rfl
    cases hfind : ys.find? fun y => r y x with
    | none => exact absurd hself (find?_eq_none.mp hfind x (hperm.mem_iff.mp hx))
    | some y =>
      have hy := hperm.mem_iff.mpr (mem_of_find?_eq_some hfind)
      have hyx : r y x = true := find?_some (p := fun y => r y x) hfind
      rw [(heq y hy x hx).mp hyx]

variable [DecidableEq ι]

def assign (fits : ρ → ι → Bool) : List ρ → List ι → Option (List ι)
  | [], cs => some cs
  | r :: rs, cs => (pick (fits r) cs).bind fun c => assign fits rs (cs.erase c)

theorem length_assign {fits : ρ → ι → Bool} {rs : List ρ} {left : List ι}
    (h : assign fits rs cs = some left) : left.length + rs.length = cs.length := by
  induction rs generalizing cs with
  | nil =>
    cases h
    rfl
  | cons r rs ih =>
    obtain ⟨c, hc, hrest⟩ := bind_eq_some_iff.mp h
    have hmem := pick_mem hc
    have hlen := ih hrest
    have hpos := length_pos_of_mem hmem
    rw [length_erase_of_mem hmem] at hlen
    rw [length_cons]
    omega

/-- Where requests with a common candidate fit the same candidates, all requests can be served
exactly if each but the last finds more candidates than requests like it came before. -/
theorem assign_isSome_iff (fits : ρ → ι → Bool) (alike : ρ → ρ → Bool)
    (hfits : ∀ r r' c, fits r c → fits r' c = alike r r') {rs : List ρ}
    (hlen : rs.length = cs.length) :
    (assign fits rs cs).isSome ↔ ∀ before r after, rs = before ++ r :: after → after ≠ [] →
      before.countP (fun p => alike p r) < cs.countP (fits r) := by
  induction rs generalizing cs with
  | nil => simp [assign]
  | cons r rs ih =>
    by_cases hrs : rs = []
    · -- the last request takes the last candidate
      subst hrs
      obtain ⟨c, rfl⟩ := length_eq_one_iff.mp hlen.symm
      simp only [assign, pick, bind_some, isSome_some, true_iff]
      intro before x after happ hafter
      cases before with
      | nil => simp_all
      | cons b before => simp at happ
    · have htwo : 2 ≤ cs.length := by
        have := length_pos_of_ne_nil hrs
        rw [← hlen, length_cons]
        omega
      rw [assign, pick_of_two htwo]
      cases hfind : cs.find? (fits r) with
      | none =>
        have hnone : cs.countP (fits r) = 0 := by
          rw [countP_eq_zero]
          exact fun c hc hfit => find?_eq_none.mp hfind c hc hfit
        simp only [bind_none, isSome_none, Bool.false_eq_true, false_iff]
        intro hall
        have := hall [] r rs rfl hrs
        omega
      | some c =>
        have hfit := find?_some hfind
        have hmem := mem_of_find?_eq_some hfind
        have hlen' : rs.length = (cs.erase c).length := by
          rw [length_erase_of_mem hmem, ← hlen, length_cons, Nat.add_sub_cancel]
        have hcount : ∀ x, (cs.erase c).countP (fits x) + (if alike r x then 1 else 0) =
            cs.countP (fits x) := by
          intro x
          rw [countP_erase, ← hfits r x c hfit]
          by_cases hx : fits x c
          · have := countP_pos_iff.mpr ⟨c, hmem, hx⟩
            simp only [hmem, hx, and_self, ↓reduceIte]
            omega
          · simp [hx]
        rw [bind_some, ih hlen']
        constructor
        · intro hall before x after happ hafter
          cases before with
          | nil =>
            cases happ
            exact countP_pos_iff.mpr ⟨c, hmem, hfit⟩
          | cons b before =>
            obtain ⟨rfl, hrest⟩ := cons.inj happ
            have hlt := hall before x after hrest hafter
            rw [countP_cons, ← hcount x]
            omega
        · intro hall before x after happ hafter
          have hlt := hall (r :: before) x after (by rw [happ, cons_append]) hafter
          rw [countP_cons, ← hcount x] at hlt
          omega

end Neug.Lib
