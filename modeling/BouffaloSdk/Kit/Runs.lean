import Mathlib.Data.List.Infix

/-!
# Runs of an event system

A system takes one event at a time and refuses those that are not enabled. What
holds of every step of a run follows from an invariant that the steps keep as
long as they meet a condition.
-/

namespace Kit.Runs

variable {σ ε : Type*} {step : σ → ε → Option σ} {s t u : σ} {e : ε} {events more : List ε}
variable {Inv : σ → Prop} {P Good Safe : σ → ε → σ → Prop}

/-- The state the run ends in. -/
def run (step : σ → ε → Option σ) (s : σ) : List ε → Option σ
  | [] => some s
  | e :: events => (step s e).bind fun t => run step t events

/-- Every step of the run satisfies `P`. A run ends at an event that is not enabled. -/
def Along (step : σ → ε → Option σ) (P : σ → ε → σ → Prop) (s : σ) : List ε → Prop
  | [] => True
  | e :: events => ∀ t, step s e = some t → P s e t ∧ Along step P t events

theorem along_nil : Along step P s [] := trivial

theorem along_true (events : List ε) : Along step (fun _ _ _ => True) s events := by
  induction events generalizing s with
  | nil => exact along_nil
  | cons e events ih => exact fun t _ => ⟨trivial, ih⟩

theorem along_cons (hstep : step s e = some t) (hP : P s e t) (h : Along step P t events) :
    Along step P s (e :: events) := by
  intro u hu
  rw [hstep] at hu
  cases hu
  exact ⟨hP, h⟩

theorem Along.of_append (h : Along step P s (events ++ more)) : Along step P s events := by
  induction events generalizing s with
  | nil => exact along_nil
  | cons e events ih => exact fun t ht => ⟨(h t ht).1, ih (h t ht).2⟩

theorem along_append (h : Along step P s events)
    (hmore : ∀ t, run step s events = some t → Along step P t more) :
    Along step P s (events ++ more) := by
  induction events generalizing s with
  | nil => exact hmore s rfl
  | cons e events ih =>
    intro t ht
    refine ⟨(h t ht).1, ih (h t ht).2 fun u hu => hmore u ?_⟩
    simpa [run, ht] using hu

/-- A run that reaches a state where an enabled event breaks `P`. -/
theorem not_along_of_run (hrun : run step s events = some t) (hstep : step t e = some u)
    (hbad : ¬ P t e u) : ¬ Along step P s (events ++ [e]) := by
  intro h
  induction events generalizing s with
  | nil =>
    cases hrun
    exact hbad (h u hstep).1
  | cons e' events ih =>
    cases hs : step s e' with
    | none => simp [run, hs] at hrun
    | some s' =>
      refine ih ?_ (h s' hs).2
      simpa [run, hs] using hrun

/-- What holds of every step holds of the last. -/
theorem along_last (h : Along step P s (events ++ [e])) (hrun : run step s (events ++ [e]) = some u) :
    ∃ t, P t e u := by
  induction events generalizing s with
  | nil =>
    cases hs : step s e with
    | none => simp [run, hs] at hrun
    | some t =>
      simp only [List.nil_append, run, hs, Option.bind_some, Option.some.injEq] at hrun
      exact ⟨s, hrun ▸ (h t hs).1⟩
  | cons e' events ih =>
    cases hs : step s e' with
    | none => simp [run, hs] at hrun
    | some t => exact ih (h t hs).2 (by simpa [run, hs] using hrun)

theorem inv_of_run (hstep : ∀ s e t, Inv s → step s e = some t → Inv t) (hinv : Inv s)
    (hrun : run step s events = some t) : Inv t := by
  induction events generalizing s with
  | nil =>
    cases hrun
    exact hinv
  | cons e events ih =>
    cases hs : step s e with
    | none => simp [run, hs] at hrun
    | some s' =>
      refine ih (hstep s e s' hinv hs) ?_
      simpa [run, hs] using hrun

theorem along_of_invariant
    (hstep : ∀ s e t, Inv s → step s e = some t → Safe s e t → Good s e t ∧ Inv t)
    (hinv : Inv s) (h : Along step Safe s events) : Along step Good s events := by
  induction events generalizing s with
  | nil => exact along_nil
  | cons e events ih =>
    intro t ht
    obtain ⟨hgood, hinv'⟩ := hstep s e t hinv ht (h t ht).1
    exact ⟨hgood, ih hinv' (h t ht).2⟩

theorem along_iff_of_invariant
    (hgood : ∀ s e t, Inv s → step s e = some t → (Good s e t ↔ Safe s e t))
    (hkeep : ∀ s e t, Inv s → step s e = some t → Safe s e t → Inv t) (hinv : Inv s) :
    Along step Good s events ↔ Along step Safe s events := by
  constructor
  · intro h
    induction events generalizing s with
    | nil => exact along_nil
    | cons e events ih =>
      intro t ht
      have hsafe := (hgood s e t hinv ht).mp (h t ht).1
      exact ⟨hsafe, ih (hkeep s e t hinv ht hsafe) (h t ht).2⟩
  · exact along_of_invariant
      (fun s e t hinv ht hsafe => ⟨(hgood s e t hinv ht).mpr hsafe, hkeep s e t hinv ht hsafe⟩) hinv

/-- Where an unsafe step can always be followed by a probe that goes wrong, the
runs that stay right under every probe are the safe ones. -/
theorem along_probes_iff {Probe : ε → Prop}
    (hstep : ∀ s e t, Inv s → step s e = some t → Safe s e t → Good s e t ∧ Inv t)
    (hprobe : ∀ s e t, Probe e → Safe s e t)
    (hbreaks : ∀ s e t, Inv s → step s e = some t → ¬ Safe s e t →
      ∃ p u, Probe p ∧ step t p = some u ∧ ¬ Good t p u) (hinv : Inv s) :
    (∀ pre, pre <+: events → ∀ p, Probe p → Along step Good s (pre ++ [p])) ↔
      Along step Safe s events := by
  constructor
  · intro h
    induction events generalizing s with
    | nil => exact along_nil
    | cons e events ih =>
      intro t ht
      have hafter : ∀ pre, pre <+: events → ∀ p, Probe p → Along step Good t (pre ++ [p]) :=
        fun pre hpre p hp => (h (e :: pre) (List.cons_prefix_cons.mpr ⟨rfl, hpre⟩) p hp t ht).2
      by_cases hsafe : Safe s e t
      · exact ⟨hsafe, ih (hstep s e t hinv ht hsafe).2 hafter⟩
      · obtain ⟨p, u, hp, hu, hbad⟩ := hbreaks s e t hinv ht hsafe
        exact absurd (hafter [] List.nil_prefix p hp u hu).1 hbad
  · intro h pre hpre p hp
    obtain ⟨rest, rfl⟩ := hpre
    refine along_of_invariant hstep hinv (along_append h.of_append fun t _ u hu => ?_)
    exact ⟨hprobe t p u hp, along_nil⟩

end Kit.Runs
