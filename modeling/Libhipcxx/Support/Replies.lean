import Mathlib.Data.List.Basic

/-!
# Sequential objects and the replies they give

An object is a partial function from an operation and a state to a reply and
a new state.  A run feeds it a list of operations and collects the replies.
One object simulates another when related states stay related and the replies
agree; the run lemma lifts this from one operation to a whole list.
-/

namespace Libhipcxx.Replies

variable {ι ρ σ τ : Type*}

/-- Feed a list of operations to an object and collect its replies. -/
def runAll (step : ι → σ → Option (ρ × σ)) :
    List ι → σ → Option (List ρ × σ)
  | [], s => some ([], s)
  | op :: ops, s =>
      (step op s).bind fun (reply, s') =>
        (runAll step ops s').map fun (replies, s'') => (reply :: replies, s'')

@[simp] theorem runAll_nil (step : ι → σ → Option (ρ × σ)) (s : σ) :
    runAll step [] s = some ([], s) := rfl

theorem runAll_cons {step : ι → σ → Option (ρ × σ)} {op : ι} {ops : List ι}
    {s s' s'' : σ} {reply : ρ} {replies : List ρ}
    (hop : step op s = some (reply, s'))
    (hops : runAll step ops s' = some (replies, s'')) :
    runAll step (op :: ops) s = some (reply :: replies, s'') := by
  simp [runAll, hop, hops]

theorem runAll_cons_inv {step : ι → σ → Option (ρ × σ)} {op : ι}
    {ops : List ι} {s : σ} {out : List ρ × σ}
    (h : runAll step (op :: ops) s = some out) :
    ∃ reply s' replies s'', step op s = some (reply, s') ∧
      runAll step ops s' = some (replies, s'') ∧
      out = (reply :: replies, s'') := by
  rw [runAll, Option.bind_eq_some_iff] at h
  obtain ⟨⟨reply, s'⟩, hop, h⟩ := h
  obtain ⟨⟨replies, s''⟩, hops, hout⟩ := Option.map_eq_some_iff.mp h
  exact ⟨reply, s', replies, s'', hop, hops, hout.symm⟩

/-- `ok` holds of every operation of the list in the state it is run in. -/
def AllOk (step : ι → σ → Option (ρ × σ)) (ok : ι → σ → Prop) :
    List ι → σ → Prop
  | [], _ => True
  | op :: ops, s =>
      ok op s ∧ ∀ reply s', step op s = some (reply, s') →
        AllOk step ok ops s'

/-- An invariant that every operation keeps holds after a run. -/
theorem runAll_invariant {step : ι → σ → Option (ρ × σ)} {P : σ → Prop}
    (hkeep : ∀ op s reply s', P s → step op s = some (reply, s') → P s')
    {ops : List ι} {s s' : σ} {replies : List ρ} (hs : P s)
    (h : runAll step ops s = some (replies, s')) : P s' := by
  induction ops generalizing s replies with
  | nil =>
      have heq : s = s' := by
        simpa using congrArg (Option.map Prod.snd) h
      exact heq ▸ hs
  | cons op ops ih =>
      obtain ⟨reply, m, rest, t, hop, hops, hout⟩ := runAll_cons_inv h
      obtain ⟨-, rfl⟩ := Prod.mk.inj hout
      exact ih (hkeep op s reply m hs hop) hops

/-- Forward simulation: if every operation that satisfies `C` succeeds, gives
the reply of the specification and keeps the states related, then so does
every list of such operations. -/
theorem runAll_simulates {step : ι → σ → Option (ρ × σ)}
    {spec : ι → τ → ρ × τ} {R : σ → τ → Prop} {C : ι → σ → Prop}
    (hstep : ∀ op s t, R s t → C op s →
      ∃ s', step op s = some ((spec op t).1, s') ∧ R s' (spec op t).2)
    {ops : List ι} {s : σ} {t : τ} (hst : R s t)
    (hok : AllOk step C ops s) :
    ∃ replies s' t',
      runAll step ops s = some (replies, s') ∧
      runAll (fun op t => some (spec op t)) ops t = some (replies, t') ∧
      R s' t' := by
  induction ops generalizing s t with
  | nil => exact ⟨[], s, t, rfl, rfl, hst⟩
  | cons op ops ih =>
      obtain ⟨hop, hrest⟩ := hok
      obtain ⟨m, hm, hrel⟩ := hstep op s t hst hop
      obtain ⟨replies, s', t', hs', ht', hfinal⟩ :=
        ih hrel (hrest _ _ hm)
      exact ⟨(spec op t).1 :: replies, s', t', runAll_cons hm hs',
        runAll_cons rfl ht', hfinal⟩

/-- A condition on the operations alone holds along the whole run. -/
theorem allOk_of_forall {step : ι → σ → Option (ρ × σ)} {ok : ι → Prop}
    {ops : List ι} (h : ∀ op ∈ ops, ok op) (s : σ) :
    AllOk step (fun op _ => ok op) ops s := by
  induction ops generalizing s with
  | nil => trivial
  | cons op ops ih =>
      refine ⟨h op List.mem_cons_self, fun _ s' _ => ?_⟩
      exact ih (fun op' hop' => h op' (List.mem_cons_of_mem op hop')) s'

end Libhipcxx.Replies
