import Mathlib.Logic.Basic

/-!
# Labelled transition systems

This module is independent of any particular program.  A system is given by
the states it may start in and by one executable partial step for each label;
a label that is not enabled in a state has no step there.

Paths carry a side condition on every step that is taken.  A statement about
all runs uses the trivial condition, and a statement about the runs that stay
inside some precondition uses that precondition.  Every safety result is one
application of `Reachable.invariant`, which packages the induction over runs.
-/

namespace Libhipcxx.Transition

universe u v w

/-- States, labels, start states and one partial step for each label. -/
structure System (σ : Type u) (ℓ : Type v) where
  start : σ → Prop
  step : σ → ℓ → Option σ

variable {σ : Type u} {ℓ : Type v}

namespace System

/-- Execute a list of labels, failing at the first one that is not enabled or
does not satisfy the condition. -/
def exec (S : System σ ℓ) (C : σ → ℓ → Prop) [∀ s l, Decidable (C s l)] :
    σ → List ℓ → Option σ
  | s, [] => some s
  | s, l :: ls =>
      if C s l then (S.step s l).bind fun t => S.exec C t ls else none

/-- `Path S C s ls t` says that the labels `ls` lead from `s` to `t` and that
every step on the way satisfies `C` in the state it is taken from. -/
inductive Path (S : System σ ℓ) (C : σ → ℓ → Prop) : σ → List ℓ → σ → Prop
  | nil (s : σ) : Path S C s [] s
  | snoc {s t u : σ} {ls : List ℓ} {l : ℓ} (hpath : Path S C s ls t)
      (hcond : C t l) (hstep : S.step t l = some u) :
      Path S C s (ls ++ [l]) u

/-- States reached from a start state by steps that satisfy `C`. -/
def Reachable (S : System σ ℓ) (C : σ → ℓ → Prop) (t : σ) : Prop :=
  ∃ s ls, S.start s ∧ Path S C s ls t

theorem Path.append {S : System σ ℓ} {C : σ → ℓ → Prop} {s t u : σ}
    {ls ms : List ℓ} (hst : Path S C s ls t) (htu : Path S C t ms u) :
    Path S C s (ls ++ ms) u := by
  induction htu with
  | nil => simpa using hst
  | snoc _ hcond hstep ih =>
      rw [← List.append_assoc]
      exact Path.snoc ih hcond hstep

theorem Path.single {S : System σ ℓ} {C : σ → ℓ → Prop} {s t : σ} {l : ℓ}
    (hcond : C s l) (hstep : S.step s l = some t) : Path S C s [l] t := by
  simpa using Path.snoc (Path.nil s) hcond hstep

/-- The last step of a path. -/
theorem Path.exists_last {S : System σ ℓ} {C : σ → ℓ → Prop} {s u : σ} {ls : List ℓ} {l : ℓ}
    (h : Path S C s (ls ++ [l]) u) : ∃ t, Path S C s ls t ∧ C t l ∧ S.step t l = some u := by
  generalize hms : ls ++ [l] = ms at h
  cases h with
  | nil => simp at hms
  | snoc hpath hcond hstep =>
      obtain ⟨rfl, hlast⟩ := List.append_inj' hms rfl
      obtain rfl := List.singleton_inj.mp hlast
      exact ⟨_, hpath, hcond, hstep⟩

theorem Path.eq_of_nil {S : System σ ℓ} {C : σ → ℓ → Prop} {s u : σ} (h : Path S C s [] u) :
    u = s := by
  generalize hms : ([] : List ℓ) = ms at h
  cases h with
  | nil => rfl
  | snoc hpath hcond hstep => simp at hms

/-- A successful execution is a path. -/
theorem path_of_exec {S : System σ ℓ} {C : σ → ℓ → Prop}
    [∀ s l, Decidable (C s l)] {s t : σ} {ls : List ℓ}
    (h : S.exec C s ls = some t) : Path S C s ls t := by
  induction ls generalizing s with
  | nil =>
      have hst : s = t := by simpa [exec] using h
      subst hst
      exact Path.nil s
  | cons l ls ih =>
      rw [exec] at h
      split at h
      · rename_i hcond
        rw [Option.bind_eq_some_iff] at h
        obtain ⟨m, hm, hrest⟩ := h
        have hfirst : Path S C s [l] m := Path.single hcond hm
        simpa using hfirst.append (ih hrest)
      · cases h

/-- A property preserved by every admitted step holds at the end of a path. -/
theorem Path.invariant {S : System σ ℓ} {C : σ → ℓ → Prop} {P : σ → Prop}
    (hkeep : ∀ s l t, P s → C s l → S.step s l = some t → P t)
    {s t : σ} {ls : List ℓ} (hpath : Path S C s ls t) (hs : P s) : P t := by
  induction hpath with
  | nil => exact hs
  | snoc _ hcond hstep ih => exact hkeep _ _ _ ih hcond hstep

/-- The induction behind every safety result: an invariant of the start
states that each admitted step preserves holds in every reachable state. -/
theorem Reachable.invariant {S : System σ ℓ} {C : σ → ℓ → Prop}
    {P : σ → Prop} (hstart : ∀ s, S.start s → P s)
    (hkeep : ∀ s l t, P s → C s l → S.step s l = some t → P t)
    {t : σ} (h : Reachable S C t) : P t := by
  obtain ⟨s, ls, hs, hpath⟩ := h
  exact hpath.invariant hkeep (hstart s hs)

theorem Reachable.of_start {S : System σ ℓ} {C : σ → ℓ → Prop} {s : σ}
    (hs : S.start s) : Reachable S C s :=
  ⟨s, [], hs, Path.nil s⟩

theorem Reachable.step {S : System σ ℓ} {C : σ → ℓ → Prop} {s t : σ} {l : ℓ}
    (hs : Reachable S C s) (hcond : C s l) (hstep : S.step s l = some t) :
    Reachable S C t := by
  obtain ⟨r, ls, hr, hpath⟩ := hs
  exact ⟨r, ls ++ [l], hr, hpath.snoc hcond hstep⟩

theorem reachable_of_exec {S : System σ ℓ} {C : σ → ℓ → Prop}
    [∀ s l, Decidable (C s l)] {s t : σ} {ls : List ℓ} (hs : S.start s)
    (h : S.exec C s ls = some t) : Reachable S C t :=
  ⟨s, ls, hs, path_of_exec h⟩

theorem Path.mono {S : System σ ℓ} {C D : σ → ℓ → Prop} {s t : σ} {ls : List ℓ}
    (hweaker : ∀ s l, C s l → D s l) (hpath : Path S C s ls t) : Path S D s ls t := by
  induction hpath with
  | nil => exact Path.nil _
  | snoc _ hcond hstep ih => exact ih.snoc (hweaker _ _ hcond) hstep

/-- A weaker condition admits more runs. -/
theorem Reachable.mono {S : System σ ℓ} {C D : σ → ℓ → Prop} {t : σ}
    (hweaker : ∀ s l, C s l → D s l) (h : Reachable S C t) : Reachable S D t := by
  obtain ⟨s, ls, hs, hpath⟩ := h
  exact ⟨s, ls, hs, hpath.mono hweaker⟩

/-! ## A moment of a run -/

/-- Some step on the way is of the given kind. -/
def Sometime (S : System σ ℓ) (C : σ → ℓ → Prop) (E : σ → ℓ → σ → Prop) (s : σ)
    (ls : List ℓ) (t : σ) : Prop :=
  ∃ before l after m m', ls = before ++ l :: after ∧ Path S C s before m ∧
    C m l ∧ S.step m l = some m' ∧ E m l m' ∧ Path S C m' after t

theorem Sometime.last {S : System σ ℓ} {C : σ → ℓ → Prop} {E : σ → ℓ → σ → Prop}
    {s t u : σ} {ls : List ℓ} {l : ℓ} (hpath : Path S C s ls t) (hcond : C t l)
    (hstep : S.step t l = some u) (hkind : E t l u) :
    Sometime S C E s (ls ++ [l]) u :=
  ⟨ls, l, [], t, u, rfl, hpath, hcond, hstep, hkind, Path.nil u⟩

theorem Sometime.snoc {S : System σ ℓ} {C : σ → ℓ → Prop} {E : σ → ℓ → σ → Prop}
    {s t u : σ} {ls : List ℓ} {l : ℓ} (h : Sometime S C E s ls t) (hcond : C t l)
    (hstep : S.step t l = some u) : Sometime S C E s (ls ++ [l]) u := by
  obtain ⟨before, l', after, m, m', rfl, hbefore, hcond', hstep', hkind, hafter⟩ := h
  refine ⟨before, l', after ++ [l], m, m', ?_, hbefore, hcond', hstep', hkind,
    hafter.snoc hcond hstep⟩
  rw [List.append_assoc, List.cons_append]

/-! ## Refinement -/

/-- A refinement mapping `f`: every concrete step is an abstract step or
leaves the abstract state alone.  The proof of one step may use that the
abstract state is reachable, hence every abstract invariant. -/
theorem Reachable.refine {τ : Type*} {κ : Type*} {S : System σ ℓ}
    {T : System τ κ} {C : σ → ℓ → Prop} {D : τ → κ → Prop} {f : σ → τ}
    (hstart : ∀ s, S.start s → T.start (f s))
    (hstep : ∀ s l s', Reachable T D (f s) → C s l → S.step s l = some s' →
      f s' = f s ∨ ∃ k, D (f s) k ∧ T.step (f s) k = some (f s'))
    {s : σ} (h : Reachable S C s) : Reachable T D (f s) := by
  refine h.invariant (P := fun s => Reachable T D (f s)) ?_ ?_
  · intro s hs
    exact Reachable.of_start (hstart s hs)
  · intro s l s' habs hcond hs'
    rcases hstep s l s' habs hcond hs' with heq | ⟨k, hk, hkstep⟩
    · rw [heq]
      exact habs
    · exact habs.step hk hkstep

/-! ## Simulation -/

/-- The labels of another system that a run stands for, where `act` gives those
of each step. -/
def reading {κ : Type*} (S : System σ ℓ) (act : σ → ℓ → List κ) : σ → List ℓ → List κ
  | _, [] => []
  | s, l :: ls =>
      act s l ++
        match S.step s l with
        | some t => S.reading act t ls
        | none => []

theorem Path.reading_append {κ : Type*} {S : System σ ℓ} {C : σ → ℓ → Prop}
    {act : σ → ℓ → List κ} {s t : σ} {ls : List ℓ} (hpath : Path S C s ls t) (ms : List ℓ) :
    S.reading act s (ls ++ ms) = S.reading act s ls ++ S.reading act t ms := by
  induction hpath generalizing ms with
  | nil => rfl
  | @snoc t u ls l _ _ hstep ih =>
      have hone (ns : List ℓ) : S.reading act t (l :: ns) = act t l ++ S.reading act u ns := by
        simp only [reading, hstep]
      rw [List.append_assoc, ih, ih, List.singleton_append, hone, hone, List.append_assoc,
        List.append_assoc]
      rfl

/-- Each step of `S` from a state that `R` relates to one of `T` is a run of `T`,
so each run of `S` is one. -/
theorem Path.simulate {τ κ : Type*} {S : System σ ℓ} {T : System τ κ} {C : σ → ℓ → Prop}
    {D : τ → κ → Prop} {R : σ → τ → Prop} {act : σ → ℓ → List κ}
    (hstep : ∀ s l s' a, Reachable S C s → R s a → C s l → S.step s l = some s' →
      ∃ a', Path T D a (act s l) a' ∧ R s' a')
    {s t : σ} {a : τ} {ls : List ℓ} (hs : S.start s) (hrel : R s a) (hpath : Path S C s ls t) :
    ∃ b, Path T D a (S.reading act s ls) b ∧ R t b := by
  induction hpath with
  | nil => exact ⟨a, Path.nil a, hrel⟩
  | @snoc t u ls l hpath hcond hnext ih =>
      obtain ⟨b, hrun, hrel'⟩ := ih
      obtain ⟨c, hone, hrel''⟩ := hstep t l u b ⟨s, ls, hs, hpath⟩ hrel' hcond hnext
      have hlast : S.reading act t [l] = act t l := by
        simp only [reading, hnext, List.append_nil]
      rw [hpath.reading_append, hlast]
      exact ⟨c, hrun.append hone, hrel''⟩

/-- Where the state of `T` is a function of that of `S`. -/
theorem Path.simulate_map {τ κ : Type*} {S : System σ ℓ} {T : System τ κ} {C : σ → ℓ → Prop}
    {D : τ → κ → Prop} {f : σ → τ} {act : σ → ℓ → List κ}
    (hstep : ∀ s l s', Reachable S C s → C s l → S.step s l = some s' →
      Path T D (f s) (act s l) (f s'))
    {s t : σ} {ls : List ℓ} (hs : S.start s) (hpath : Path S C s ls t) :
    Path T D (f s) (S.reading act s ls) (f t) := by
  obtain ⟨b, hrun, rfl⟩ := hpath.simulate (R := fun s a => a = f s)
    (fun s l s' a hreach hrel hcond hnext =>
      ⟨f s', hrel ▸ hstep s l s' hreach hcond hnext, rfl⟩) hs rfl
  exact hrun

/-- Where each step of `S` is the step of `T` with the same label. -/
theorem Path.project {τ : Type*} {S : System σ ℓ} {T : System τ ℓ} {C : σ → ℓ → Prop}
    {D : τ → ℓ → Prop} {f : σ → τ}
    (hstep : ∀ s l s', Reachable S C s → C s l → S.step s l = some s' →
      D (f s) l ∧ T.step (f s) l = some (f s'))
    {s t : σ} {ls : List ℓ} (hs : S.start s) (hpath : Path S C s ls t) :
    Path T D (f s) ls (f t) := by
  induction hpath with
  | nil => exact Path.nil (f s)
  | @snoc t u ls l hpath hcond hnext ih =>
      obtain ⟨hcond', hnext'⟩ := hstep t l u ⟨s, ls, hs, hpath⟩ hcond hnext
      exact ih.snoc hcond' hnext'

end System

end Libhipcxx.Transition
