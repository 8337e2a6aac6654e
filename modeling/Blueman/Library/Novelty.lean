import Mathlib.Data.List.Induction
import Mathlib.Data.Set.Lattice
import Mathlib.Order.CompletePartialOrder
import Mathlib.Order.ConditionallyCompleteLattice.Basic

/-!
# Keeping what adds something

Of a sequence of items, each with its value in a semilattice, those are kept whose
value is not below the join of the ones kept before. The kept ones have the join of
all: a search that remembers what it has kept, and one that remembers the join of
everything, decide alike.
-/

namespace Blueman.Novelty

set_option autoImplicit false

universe u v

variable {Item : Type u} {Value : Type v} [SemilatticeSup Value] [OrderBot Value]

def joined (value : Item → Value) (items : List Item) : Value :=
  items.foldl (fun join item => join ⊔ value item) ⊥

def Adds (value : Item → Value) (items : List Item) (item : Item) : Prop :=
  ¬value item ≤ joined value items

open Classical in
noncomputable def novel (value : Item → Value) (items : List Item) : List Item :=
  items.foldl (fun kept item => if Adds value kept item then kept ++ [item] else kept) []

section

variable {value : Item → Value} {items : List Item} {item : Item}

theorem joined_append : joined value (items ++ [item]) = joined value items ⊔ value item :=
  List.foldl_append

theorem novel_keep (adds : Adds value (novel value items) item) :
    novel value (items ++ [item]) = novel value items ++ [item] := by
  unfold novel at adds ⊢
  rw [List.foldl_append]
  exact if_pos adds

theorem novel_drop (covered : ¬Adds value (novel value items) item) :
    novel value (items ++ [item]) = novel value items := by
  unfold novel at covered ⊢
  rw [List.foldl_append]
  exact if_neg covered

variable (value items) in
theorem joined_novel : joined value (novel value items) = joined value items := by
  induction items using List.reverseRecOn with
  | nil => rfl
  | append_singleton items item induction =>
      by_cases adds : Adds value (novel value items) item
      · rw [novel_keep adds, joined_append, joined_append, induction]
      · have below : value item ≤ joined value (novel value items) := Classical.not_not.mp adds
        rw [novel_drop adds, joined_append, induction]
        rw [induction] at below
        exact (sup_eq_left.mpr below).symm

theorem adds_novel_iff : Adds value (novel value items) item ↔ Adds value items item := by
  rw [Adds, joined_novel, Adds]

theorem novel_adds {front rest : List Item} (kept : novel value items = front ++ item :: rest) :
    Adds value front item := by
  induction items using List.reverseRecOn generalizing rest with
  | nil =>
      have empty := congrArg List.length kept
      simp [novel] at empty
  | append_singleton items last induction =>
      by_cases adds : Adds value (novel value items) last
      · rw [novel_keep adds] at kept
        cases rest using List.reverseRecOn with
        | nil =>
            obtain ⟨same, final⟩ := List.append_inj' kept rfl
            cases final
            rwa [← same]
        | append_singleton rest final =>
            have regrouped : front ++ item :: (rest ++ [final]) =
                (front ++ item :: rest) ++ [final] := by simp
            rw [regrouped] at kept
            exact induction (List.append_inj' kept rfl).1
      · rw [novel_drop adds] at kept
        exact induction kept

theorem mem_joined {Point : Type v} {value : Item → Set Point} {point : Point} :
    point ∈ joined value items ↔ ∃ item ∈ items, point ∈ value item := by
  induction items using List.reverseRecOn with
  | nil =>
      constructor
      · exact False.elim
      · intro ⟨_, member, _⟩
        cases member
  | append_singleton items item induction =>
      rw [joined_append]
      change point ∈ joined value items ∨ point ∈ value item ↔ _
      rw [induction]
      simp [or_and_right, exists_or]

end

end Blueman.Novelty
