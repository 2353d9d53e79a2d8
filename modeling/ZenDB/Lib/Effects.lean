import Mathlib.Data.List.Basic

namespace ZenDB

/-! Programs as lists of effects, and a logic for what a crash between two effects leaves behind. -/

universe u v
variable {σ ε : Type u} (perform : σ → ε → Option σ)

/-- Runs effects until one fails; the flag tells whether all went through. -/
def execEffects (s : σ) : List ε → σ × Bool
  | [] => (s, true)
  | e :: es =>
    match perform s e with
    | some s' => execEffects s' es
    | none => (s, false)

/-- A program behind another one runs if that goes through. -/
theorem execEffects_append (s : σ) (es es' : List ε) :
    execEffects perform s (es ++ es') =
      if (execEffects perform s es).2 = true then execEffects perform (execEffects perform s es).1 es'
      else execEffects perform s es := by
  induction es generalizing s with
  | nil => rfl
  | cons e es ih =>
    rw [List.cons_append, execEffects, execEffects]
    cases perform s e with
    | none => rfl
    | some s' => exact ih s'

theorem execEffects_append_ok (s : σ) (es es' : List ε) :
    (execEffects perform s (es ++ es')).2 = true ↔ (execEffects perform s es).2 = true ∧
      (execEffects perform (execEffects perform s es).1 es').2 = true := by
  rw [execEffects_append]
  by_cases hok : (execEffects perform s es).2 = true
  · rw [if_pos hok, and_iff_right hok]
  · rw [if_neg hok]
    exact iff_of_false hok fun hand => hok hand.1

/-- `crash` holds wherever the program is cut off, `post` where it stops by itself; the flag of
`post` is false when an effect failed. -/
structure CrashTriple (crash : σ → Prop) (s : σ) (es : List ε) (post : σ → Bool → Prop) : Prop where
  during : ∀ n, crash (execEffects perform s (es.take n)).1
  after : post (execEffects perform s es).1 (execEffects perform s es).2

namespace CrashTriple

variable {perform} {crash : σ → Prop} {s : σ} {e : ε} {es es' : List ε} {post post' : σ → Bool → Prop}

theorem nil (hcrash : crash s) (hpost : post s true) : CrashTriple perform crash s [] post :=
  ⟨fun n => by rw [List.take_nil]; exact hcrash, hpost⟩

theorem cons (hcrash : crash s)
    (hsome : ∀ s', perform s e = some s' → CrashTriple perform crash s' es post)
    (hnone : perform s e = none → post s false) :
    CrashTriple perform crash s (e :: es) post := by
  cases h : perform s e with
  | none =>
    refine ⟨?_, ?_⟩
    · intro n
      cases n with
      | zero => exact hcrash
      | succ n => rwa [List.take_succ_cons, execEffects, h]
    · rw [execEffects, h]
      exact hnone h
  | some s' =>
    have hrest := hsome s' h
    refine ⟨?_, ?_⟩
    · intro n
      cases n with
      | zero => exact hcrash
      | succ n =>
        rw [List.take_succ_cons, execEffects, h]
        exact hrest.during n
    · rw [execEffects, h]
      exact hrest.after

/-- An effect that cannot fail. -/
theorem step {s' : σ} (hcrash : crash s) (h : perform s e = some s')
    (hrest : CrashTriple perform crash s' es post) : CrashTriple perform crash s (e :: es) post := by
  refine cons hcrash ?_ ?_
  · intro s₁ h₁
    rw [h, Option.some.injEq] at h₁
    exact h₁ ▸ hrest
  · intro hnone
    rw [h] at hnone
    cases hnone

theorem append (h : CrashTriple perform crash s es post)
    (hrest : ∀ s', post s' true → CrashTriple perform crash s' es' post')
    (hfail : ∀ s', post s' false → post' s' false) :
    CrashTriple perform crash s (es ++ es') post' := by
  induction es generalizing s with
  | nil => exact hrest s h.after
  | cons e es ih =>
    have hcrash := h.during 0
    obtain ⟨hduring, hafter⟩ := h
    cases he : perform s e with
    | none =>
      rw [execEffects, he] at hafter
      refine cons hcrash (fun s' hs' => ?_) (fun _ => hfail s hafter)
      rw [he] at hs'
      cases hs'
    | some s' =>
      rw [execEffects, he] at hafter
      refine step hcrash he (ih ⟨?_, hafter⟩)
      intro n
      have hn := hduring (n+1)
      rwa [List.take_succ_cons, execEffects, he] at hn

theorem weaken (h : CrashTriple perform crash s es post) (hpost : ∀ s' ok, post s' ok → post' s' ok) :
    CrashTriple perform crash s es post' :=
  ⟨h.during, hpost _ _ h.after⟩

/-- What a loop ends with: all of its list done, or the loop left where a body failed. -/
def LoopPost {α : Type v} (inv : List α → σ → Prop) (fail : σ → Prop) (l : List α) (s : σ)
    (ok : Bool) : Prop :=
  (ok = true → inv l s) ∧ (ok = false → fail s)

/-- The rule for a loop over a list: `inv` is about the items done so far. -/
theorem forEach {α : Type v} {body : α → List ε} (inv : List α → σ → Prop) (fail : σ → Prop)
    (l : List α) (hcrash : ∀ p s', inv p s' → crash s')
    (hbody : ∀ p x s', p ++ [x] <+: l → inv p s' →
      CrashTriple perform crash s' (body x) (LoopPost inv fail (p ++ [x])))
    (hstart : inv [] s) :
    CrashTriple perform crash s (l.flatMap body) (LoopPost inv fail l) := by
  have hloop : ∀ (q p : List α) (s : σ), l = p ++ q → inv p s →
      CrashTriple perform crash s (q.flatMap body) (LoopPost inv fail l) := by
    intro q
    induction q with
    | nil =>
      intro p s hl hp
      rw [List.append_nil] at hl
      exact nil (hcrash p s hp) ⟨fun _ => hl ▸ hp, fun hfalse => by cases hfalse⟩
    | cons x q ih =>
      intro p s hl hp
      have hpre : p ++ [x] <+: l := ⟨q, by rw [hl, List.append_assoc]; rfl⟩
      rw [List.flatMap_cons]
      refine append (hbody p x s hpre hp) ?_ ?_
      · intro s' hpost
        exact ih (p ++ [x]) s' (by rw [hl, List.append_assoc]; rfl) (hpost.1 rfl)
      · intro s' hpost
        exact ⟨(fun htrue => by cases htrue), hpost.2⟩
  exact hloop l [] s rfl hstart

end CrashTriple

end ZenDB
