import Mathlib.Data.List.Forall2
import Mathlib.Data.Option.Basic
import Mathlib.Tactic.Common

namespace ZenDB

universe u

/-- Total and partial correctness of a computation that can fail: a result satisfies `post`, and a
failure is possible only without `room`. -/
structure Completes {α : Type u} (room : Prop) (o : Option α) (post : α → Prop) : Prop where
  post : ∀ a, o = some a → post a
  fails : o = none → ¬ room

namespace Completes

variable {α β : Type u} {room room' : Prop} {o : Option α} {P Q : α → Prop}

theorem some {a : α} (h : P a) : Completes room (some a) P :=
  ⟨(fun b hb => by cases hb; exact h), fun hnone => by cases hnone⟩

theorem bind {f : α → Option β} {R : β → Prop} (h : Completes room o P)
    (hf : ∀ a, P a → Completes room (f a) R) : Completes room (o >>= f) R := by
  cases o with
  | none => exact ⟨(fun b hb => by cases hb), fun _ => h.fails rfl⟩
  | some a => exact hf a (h.post a rfl)

theorem mono (h : Completes room o P) (hPQ : ∀ a, P a → Q a) : Completes room o Q :=
  ⟨fun a ha => hPQ a (h.post a ha), h.fails⟩

theorem weaken (h : Completes room' o P) (hroom : room → room') : Completes room o P :=
  ⟨h.post, fun hnone hr => h.fails hnone (hroom hr)⟩

theorem exists_of_room (h : Completes room o P) (hroom : room) : ∃ a, o = Option.some a ∧ P a := by
  cases ho : o with
  | none => exact absurd hroom (h.fails ho)
  | some a => exact ⟨a, rfl, h.post a ho⟩

end Completes

/-- A traversal whose every step succeeds. -/
theorem mapM_of_forall₂ {α : Type u} {β : Type u} {f : α → Option β} {xs : List α} {ys : List β}
    (h : List.Forall₂ (fun x y => f x = some y) xs ys) : xs.mapM f = some ys := by
  induction h with
  | nil => rfl
  | @cons x y xs ys hxy _ ih =>
    rw [List.mapM_cons, hxy, ih]
    rfl

theorem forall₂_of_mapM {α : Type u} {β : Type u} {f : α → Option β} {xs : List α} {ys : List β}
    (h : xs.mapM f = some ys) : List.Forall₂ (fun x y => f x = some y) xs ys := by
  induction xs generalizing ys with
  | nil =>
    cases h
    exact .nil
  | cons x xs ih =>
    rw [List.mapM_cons] at h
    obtain ⟨y, hy, h⟩ := Option.bind_eq_some_iff.mp h
    obtain ⟨zs, hzs, h⟩ := Option.bind_eq_some_iff.mp h
    cases h
    exact .cons hy (ih hzs)

end ZenDB
