import Neug.Lib.LittleEndian

/-! Codes whose words end where they say: in a longer sequence the word and the rest can be told
apart, so that words written one after another can be read back. -/
namespace Neug.Lib
open List

variable {α β : Type}

def Delimits (enc : α → List β) (P : α → Prop) : Prop :=
  ∀ ⦃a b r s⦄, P a → P b → enc a ++ r = enc b ++ s → a = b ∧ r = s

namespace Delimits

variable {enc : α → List β} {P Q : α → Prop}

theorem append_separator (h : Delimits enc P) (sep : List β) :
    Delimits (fun a => enc a ++ sep) P := by
  intro a b r s ha hb he
  simp only [append_assoc] at he
  obtain ⟨rfl, hrest⟩ := h ha hb he
  exact ⟨rfl, append_cancel_left hrest⟩

theorem injective (h : Delimits enc P) {a b : α} (ha : P a) (hb : P b) (he : enc a = enc b) :
    a = b := by
  have hcat : enc a ++ [] = enc b ++ [] := by rw [he]
  exact (h ha hb hcat).1

theorem of_length {k : ℕ} (hlen : ∀ a, P a → (enc a).length = k)
    (hinj : ∀ a b, P a → P b → enc a = enc b → a = b) : Delimits enc P := by
  intro a b r s ha hb he
  have hsame : (enc a).length = (enc b).length := by rw [hlen a ha, hlen b hb]
  obtain ⟨hword, hrest⟩ := append_inj he hsame
  exact ⟨hinj a b ha hb hword, hrest⟩

theorem flatMap (Ps : List (α → Prop)) (h : ∀ P ∈ Ps, Delimits enc P) :
    Delimits (fun as : List α => as.flatMap enc) (List.Forall₂ (fun P a => P a) Ps) := by
  induction Ps with
  | nil =>
    intro as bs r s ha hb he
    cases ha
    cases hb
    exact ⟨rfl, he⟩
  | cons P Ps ih =>
    intro as bs r s ha hb he
    cases ha with
    | cons ha has =>
      cases hb with
      | cons hb hbs =>
        simp only [flatMap_cons, append_assoc] at he
        obtain ⟨rfl, htail⟩ := h P mem_cons_self ha hb he
        obtain ⟨rfl, hrest⟩ := ih (fun Q hQ => h Q (mem_cons_of_mem P hQ)) has hbs htail
        exact ⟨rfl, hrest⟩

end Delimits

theorem leBytes_injOn {k v w : ℕ} (hv : v < 256 ^ k) (hw : w < 256 ^ k)
    (h : leBytes k v = leBytes k w) : v = w := by
  have hvalue : leValue (leBytes k v) = leValue (leBytes k w) := by rw [h]
  rwa [leValue_leBytes, leValue_leBytes, Nat.mod_eq_of_lt hv, Nat.mod_eq_of_lt hw] at hvalue

end Neug.Lib
