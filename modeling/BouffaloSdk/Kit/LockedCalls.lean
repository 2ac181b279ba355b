import BouffaloSdk.Kit.Runs
import Mathlib.Algebra.Group.Pi.Basic
import Mathlib.Algebra.Ring.Int.Defs

/-!
# Calls that take locks

Calls run in threads, one access to the memory or one lock call at a time.
Between any two steps the other threads take theirs, and the memory may change
in any other way. A loop is a label that a call jumps to.
-/

namespace Kit.Locked
open Runs

/-- What is left of a call. `I` labels the loops, `P` the places where a
condition can be put, `L` the locks. -/
inductive Code (I P L σ ρ : Type)
  | ret (r : ρ)
  | halt
  | jump (i : I)
  | access (place : P) (write : σ → σ) (next : σ → Code I P L σ ρ)
  | acquire (place : P) (l : L) (next : Bool → Code I P L σ ρ)
  | release (l : L) (next : Bool → Code I P L σ ρ)

/-- A thread with the locks that its call got and gave back. -/
structure Thread (I P L σ ρ : Type) where
  code : Code I P L σ ρ
  acquired : L → Nat
  released : L → Nat

structure Calls (κ I P L σ ρ : Type) where
  start : κ → Code I P L σ ρ
  body : I → Code I P L σ ρ

structure System (I P L σ ρ ι : Type) where
  memory : σ
  threads : ι → Thread I P L σ ρ

/-- `ok` is what a lock call of the step answers. -/
inductive Event (κ σ ι : Type)
  | call (i : ι) (c : κ)
  | act (i : ι) (ok : Bool)
  | change (memory : σ)

variable {κ I P L σ ρ ι : Type}

def count [DecidableEq L] (n : L → Nat) (l : L) : L → Nat := Function.update n l (n l + 1)

def Thread.begin (code : Code I P L σ ρ) : Thread I P L σ ρ :=
  { code := code, acquired := fun _ => 0, released := fun _ => 0 }

def Thread.step [DecidableEq L] (calls : Calls κ I P L σ ρ) (m : σ) (ok : Bool) (t : Thread I P L σ ρ) :
    Option (σ × Thread I P L σ ρ) :=
  match t.code with
  | .ret _ => none
  | .halt => none
  | .jump i => some (m, { t with code := calls.body i })
  | .access _ write next => some (write m, { t with code := next m })
  | .acquire _ l next =>
    some (m, { t with
      code := next ok
      acquired := if ok then count t.acquired l else t.acquired })
  | .release l next => some (m, { t with code := next ok, released := count t.released l })

def step [DecidableEq L] [DecidableEq ι] (calls : Calls κ I P L σ ρ) (w : System I P L σ ρ ι) :
    Event κ σ ι → Option (System I P L σ ρ ι)
  | .call i c =>
    match (w.threads i).code with
    | .ret _ =>
      some { w with threads := Function.update w.threads i (Thread.begin (calls.start c)) }
    | _ => none
  | .act i ok =>
    ((w.threads i).step calls w.memory ok).map fun (m, t) =>
      { memory := m, threads := Function.update w.threads i t }
  | .change m => some { w with memory := m }

/-- A call that has returned gave each lock back as often as it got it. -/
def Balanced (_ : System I P L σ ρ ι) (_ : Event κ σ ι) (t : System I P L σ ρ ι) : Prop :=
  ∀ i r, (t.threads i).code = .ret r → ∀ l, (t.threads i).acquired l = (t.threads i).released l

/-- The step finds what its place allows. -/
def Meets (Allowed : P → σ → Bool → Prop) (w : System I P L σ ρ ι) (e : Event κ σ ι)
    (_ : System I P L σ ρ ι) : Prop :=
  match e with
  | .act i ok =>
    match (w.threads i).code with
    | .access place _ _ => Allowed place w.memory ok
    | .acquire place _ _ => Allowed place w.memory ok
    | _ => True
  | _ => True

/-! ## Paths -/

variable {Allowed : P → σ → Bool → Prop} {inv : I → L → Int} {calls : Calls κ I P L σ ρ}
variable {n : L → Int} {w t : System I P L σ ρ ι} {e : Event κ σ ι}

def Thread.held (t : Thread I P L σ ρ) (l : L) : Int := t.acquired l - t.released l

theorem held_begin (code : Code I P L σ ρ) : (Thread.begin code).held = 0 := by
  funext l
  rfl

variable [DecidableEq L]

/-- On every path from here, with the locks `n` held, a return holds none and a
jump what its loop asks for. -/
def Ends (Allowed : P → σ → Bool → Prop) (inv : I → L → Int) :
    Code I P L σ ρ → (L → Int) → Prop
  | .ret _, n => n = 0
  | .halt, _ => True
  | .jump i, n => n = inv i
  | .access place _ next, n => ∀ m ok, Allowed place m ok → Ends Allowed inv (next m) n
  | .acquire place l next, n =>
    ∀ m ok, Allowed place m ok → Ends Allowed inv (next ok) (if ok then n + Pi.single l 1 else n)
  | .release l next, n => ∀ ok, Ends Allowed inv (next ok) (n - Pi.single l 1)

theorem held_acquired (t : Thread I P L σ ρ) (l : L) (code : Code I P L σ ρ) :
    ({ t with code := code, acquired := count t.acquired l } : Thread I P L σ ρ).held =
      t.held + Pi.single l 1 := by
  funext k
  unfold Thread.held count
  by_cases hk : k = l
  · subst hk
    simp only [Function.update_self, Pi.add_apply, Pi.single_eq_same]
    omega
  · simp only [Function.update_of_ne hk, Pi.add_apply, Pi.single_eq_of_ne hk]
    omega

theorem held_released (t : Thread I P L σ ρ) (l : L) (code : Code I P L σ ρ) :
    ({ t with code := code, released := count t.released l } : Thread I P L σ ρ).held =
      t.held - Pi.single l 1 := by
  funext k
  unfold Thread.held count
  by_cases hk : k = l
  · subst hk
    simp only [Function.update_self, Pi.sub_apply, Pi.single_eq_same]
    omega
  · simp only [Function.update_of_ne hk, Pi.sub_apply, Pi.single_eq_of_ne hk]
    omega

/-- Every thread is on a path that ends well. -/
def OnPath (Allowed : P → σ → Bool → Prop) (inv : I → L → Int) (w : System I P L σ ρ ι) : Prop :=
  ∀ i, Ends Allowed inv (w.threads i).code (w.threads i).held

theorem balanced_of_onPath (h : OnPath Allowed inv t) : Balanced w e t := by
  intro i r hret l
  have hpath := h i
  rw [hret] at hpath
  have hheld := congrFun hpath l
  simp only [Thread.held, Pi.zero_apply] at hheld
  omega

/-- One step of a thread keeps it on its path. -/
theorem ends_step (hbody : ∀ i, Ends Allowed inv (calls.body i) (inv i)) {m m' : σ} {ok : Bool}
    {a b : Thread I P L σ ρ} (hpath : Ends Allowed inv a.code a.held)
    (hstep : a.step calls m ok = some (m', b))
    (hmeets : match a.code with
      | .access place _ _ => Allowed place m ok
      | .acquire place _ _ => Allowed place m ok
      | _ => True) : Ends Allowed inv b.code b.held := by
  obtain ⟨code, acquired, released⟩ := a
  cases code with
  | ret r => cases hstep
  | halt => cases hstep
  | jump i =>
    cases hstep
    have hheld : Thread.held ⟨calls.body i, acquired, released⟩ = inv i := hpath
    rw [hheld]
    exact hbody i
  | access place write next =>
    cases hstep
    exact hpath m ok hmeets
  | acquire place l next =>
    cases hstep
    have hnext := hpath m ok hmeets
    cases ok with
    | false => exact hnext
    | true =>
      have hheld := held_acquired ⟨.acquire place l next, acquired, released⟩ l (next true)
      exact hheld ▸ hnext
  | release l next =>
    cases hstep
    have hheld := held_released ⟨.release l next, acquired, released⟩ l (next ok)
    exact hheld ▸ hpath ok

variable [DecidableEq ι]

theorem onPath_update (h : OnPath Allowed inv w) {m : σ} {i : ι} {a : Thread I P L σ ρ}
    (ha : Ends Allowed inv a.code a.held) :
    OnPath Allowed inv { memory := m, threads := Function.update w.threads i a } := by
  intro j
  dsimp only
  by_cases hj : j = i
  · rw [hj, Function.update_self]
    exact ha
  · rw [Function.update_of_ne hj]
    exact h j

theorem onPath_step (hstart : ∀ c, Ends Allowed inv (calls.start c) 0)
    (hbody : ∀ i, Ends Allowed inv (calls.body i) (inv i)) (h : OnPath Allowed inv w)
    (hstep : step calls w e = some t) (hmeets : Meets Allowed w e t) : OnPath Allowed inv t := by
  cases e with
  | call i c =>
    dsimp only [step] at hstep
    split at hstep
    · cases hstep
      refine onPath_update h ?_
      rw [held_begin]
      exact hstart c
    · cases hstep
  | act i ok =>
    dsimp only [step] at hstep
    obtain ⟨⟨m', a⟩, hthread, hnext⟩ := Option.map_eq_some_iff.mp hstep
    cases hnext
    exact onPath_update h (ends_step hbody (h i) hthread hmeets)
  | change m =>
    cases hstep
    exact h

/-- Where every call and every loop ends well on each path that the condition
allows, no run of any threads returns with a lock. -/
theorem balanced_along (hstart : ∀ c, Ends Allowed inv (calls.start c) 0)
    (hbody : ∀ i, Ends Allowed inv (calls.body i) (inv i)) (h : OnPath Allowed inv w)
    {events : List (Event κ σ ι)} (hmeets : Along (step calls) (Meets Allowed) w events) :
    Along (step calls) Balanced w events :=
  along_of_invariant (fun _ _ _ hw hs hm =>
    have hnext := onPath_step hstart hbody hw hs hm
    ⟨balanced_of_onPath hnext, hnext⟩) h hmeets

end Kit.Locked
