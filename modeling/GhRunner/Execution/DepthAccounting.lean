import GhRunner.Execution.CompositeDepth

namespace GhRunner.Execution.Depth

open Text Lockstep

/-!
# What the depth tracker comes to

A tracker that a refused action leaves one too high, against the chain of enclosing composites.

* `closed_runCompositeInner`, `closed_runSteps` — the loops, gone through once for every property of
  the calls in them;
* `keeps_executeAction` — the record of a run only grows;
* `tracked_never_lost` — the tracker stops every chain, however it has been left;
* `together_executeAction` — the two ways to account for the depth agree up to the first refusal;
* `depth_balanced_iff` — so the tracker is right exactly in the jobs that nothing is refused in.
-/

variable {σ U B D D' : Type} {acc : Accounting D} {acc' : Accounting D'} {env : Surroundings σ U B}
  {max : ℕ}

/-! ### The loops -/

section Closed

variable {K : ∀ {α : Type}, StateM (JobRun σ D) α → StateM (JobRun σ D') α → Prop}
  {call : Call σ U D} {call' : Call σ U D'}

theorem closed_runNestedUsesStep (hK : Closed K) (hctx : ∀ {α} (x : StateM σ α),
      K (onCtx x) (onCtx x)) (hcall : ∀ uses, K (call uses) (call' uses)) (uses : U) (body : B) :
    K (runNestedUsesStep env call uses body) (runNestedUsesStep env call' uses body) := by
  refine hK.bind (hctx _) fun prepared => ?_
  cases prepared with
  | error e => exact hK.pure _
  | ok _ =>
    refine hK.bind (hcall uses) fun outcome => ?_
    cases outcome with
    | error e => exact hK.pure _
    | ok conclusion => exact hK.bind (hctx _) fun _ => hK.pure _

theorem closed_runOneStep (hK : Closed K) (hctx : ∀ {α} (x : StateM σ α), K (onCtx x) (onCtx x))
    (hcall : ∀ uses, K (call uses) (call' uses)) (step : RunnerStep U B) :
    K (runOneStep env call step) (runOneStep env call' step) := by
  unfold runOneStep
  cases step.uses with
  | some uses =>
    refine hK.bind (closed_runNestedUsesStep hK hctx hcall uses step.body) fun outcome => ?_
    match outcome with
    | .ok _ => exact hK.pure _
    | .error .cancelled => exact hK.pure _
    | .error (.stepExecution _) => exact hK.bind (hctx _) fun _ => hK.pure _
    | .error (.other _) => exact hK.bind (hctx _) fun _ => hK.pure _
  | none =>
    refine hK.bind (hctx _) fun result => ?_
    match result with
    | none => exact hK.pure _
    | some (.ok _) => exact hK.pure _
    | some (.error _) => exact hK.bind (hctx _) fun _ => hK.pure _

theorem closed_updateCompositeStatus (hK : Closed K) (hctx : ∀ {α} (x : StateM σ α),
      K (onCtx x) (onCtx x)) (conclusion aggregate : Conclusion) :
    K (updateCompositeStatus env conclusion aggregate)
      (updateCompositeStatus env conclusion aggregate) := by
  unfold updateCompositeStatus
  cases conclusion with
  | failure =>
    dsimp only
    split
    · exact hK.bind (hctx _) fun _ => hK.pure _
    · exact hK.pure _
  | cancelled => exact hK.bind (hctx _) fun _ => hK.pure _
  | success => exact hK.pure _
  | skipped => exact hK.pure _

theorem closed_innerConclusion (hK : Closed K) (hctx : ∀ {α} (x : StateM σ α),
      K (onCtx x) (onCtx x)) (step : RunnerStep U B) (outcome : Conclusion) :
    K (innerConclusion env step outcome) (innerConclusion env step outcome) := by
  unfold innerConclusion
  split
  · refine hK.bind (hctx _) fun tolerated => ?_
    cases tolerated with
    | true => exact hK.pure _
    | false => exact hK.pure _
  · exact hK.pure _

theorem closed_runCompositeSteps (hK : Closed K) (hctx : ∀ {α} (x : StateM σ α),
      K (onCtx x) (onCtx x)) (hcall : ∀ uses, K (call uses) (call' uses))
    (steps : List (RunnerStep U B)) (aggregate : Conclusion) :
    K (runCompositeSteps env call steps aggregate) (runCompositeSteps env call' steps aggregate) := by
  induction steps generalizing aggregate with
  | nil => exact hK.pure _
  | cons step steps ih =>
    refine hK.bind (hctx _) fun forced => ?_
    cases forced with
    | true => exact hK.pure _
    | false =>
      refine hK.bind (hctx _) fun eligible => ?_
      match eligible with
      | .error e => exact hK.bind (hctx _) fun _ => hK.bind (hctx _) fun _ => hK.pure _
      | .ok false => exact hK.bind (hctx _) fun _ => ih aggregate
      | .ok true =>
        refine hK.bind (closed_runOneStep hK hctx hcall step) fun outcome => ?_
        cases outcome with
        | none => exact ih aggregate
        | some outcome =>
          exact hK.bind (closed_innerConclusion hK hctx step outcome) fun _ =>
            hK.bind (hctx _) fun _ =>
              hK.bind (closed_updateCompositeStatus hK hctx _ _) fun aggregate => ih aggregate

theorem closed_runCompositeInner (hK : Closed K) (hctx : ∀ {α} (x : StateM σ α),
      K (onCtx x) (onCtx x)) (hcall : ∀ uses, K (call uses) (call' uses)) (uses : U)
    (steps : List (RunnerStep U B)) :
    K (runCompositeInner env call uses steps) (runCompositeInner env call' uses steps) := by
  refine hK.bind (hctx _) fun entered => ?_
  cases entered with
  | error e => exact hK.pure _
  | ok _ =>
    refine hK.bind (closed_runCompositeSteps hK hctx hcall steps .success) fun conclusion =>
      hK.bind (hctx _) fun left => ?_
    cases left with
    | error e => exact hK.pure _
    | ok _ => exact hK.pure _

theorem closed_runSteps {fuel : ℕ} (hK : Closed K) (hctx : ∀ {α} (x : StateM σ α),
      K (onCtx x) (onCtx x))
    (hcall : ∀ uses, K (executeAction acc env fuel 0 uses) (executeAction acc' env fuel 0 uses))
    (steps : List (RunnerStep U B)) :
    K (runSteps acc env fuel steps) (runSteps acc' env fuel steps) := by
  induction steps with
  | nil => exact hK.pure _
  | cons step steps ih =>
    refine hK.bind (hctx _) fun starts => ?_
    cases starts with
    | false => exact ih
    | true =>
      cases huses : step.uses with
      | some uses =>
        simp only
        exact hK.bind (hcall uses) fun _ => hK.bind (hctx _) fun _ => ih
      | none =>
        simp only
        exact hK.bind (hctx _) fun _ => hK.bind (hctx _) fun _ => ih

end Closed

/-! ### The calls -/

/-- The state after the action itself, with the depth before it and after it on record. -/
theorem executeAction_run (fuel chain : ℕ) (uses : U) (s : JobRun σ D) :
    (executeAction acc env (fuel + 1) chain uses).run s =
      let r := (executeResolved acc env (executeAction acc env fuel (chain + 1)) chain uses).run s
      (r.1, { r.2 with log := r.2.log ++ [.returned s.depth r.2.depth] }) := rfl

theorem runCompositeAction_refused {call : Call σ U D} {chain : ℕ} {uses : U}
    {steps : List (RunnerStep U B)} {s : JobRun σ D} {e : ActionError} {depth : D}
    (h : acc.enter (chain + 1) s.depth = (.error e, depth)) :
    (runCompositeAction acc env call chain uses steps).run s =
      (.error e, { s with depth, log := s.log ++ [.entered (chain + 1) true] }) := by
  have henter : (enterDepth acc (chain + 1)).run s = (.error e, { s with depth }) := by
    show ((acc.enter (chain + 1) s.depth).1,
      { s with depth := (acc.enter (chain + 1) s.depth).2 }) = _
    rw [h]
  rw [runCompositeAction, run_bind, henter]
  rfl

theorem runCompositeAction_entered {call : Call σ U D} {chain : ℕ} {uses : U}
    {steps : List (RunnerStep U B)} {s : JobRun σ D} {depth : D}
    (h : acc.enter (chain + 1) s.depth = (.ok (), depth)) :
    (runCompositeAction acc env call chain uses steps).run s =
      let r := (runCompositeInner env call uses steps).run
        { s with depth, log := s.log ++ [.entered (chain + 1) false] }
      (r.1, { r.2 with depth := acc.exit r.2.depth }) := by
  have henter : (enterDepth acc (chain + 1)).run s = (.ok (), { s with depth }) := by
    show ((acc.enter (chain + 1) s.depth).1,
      { s with depth := (acc.enter (chain + 1) s.depth).2 }) = _
    rw [h]
  rw [runCompositeAction, run_bind, henter]
  rfl

theorem DepthTracker.enter_of_full {depth : DepthTracker} (h : depth.max < depth.current + 1) :
    depth.enter =
      (.error (limitExceeded depth.max), { depth with current := depth.current + 1 }) :=
  if_pos h

theorem DepthTracker.enter_of_room {depth : DepthTracker} (h : depth.current + 1 ≤ depth.max) :
    depth.enter = (.ok (), { depth with current := depth.current + 1 }) :=
  if_neg (Nat.not_lt.mpr h)

theorem keeps_onCtx {P : JobRun σ D → Prop} (hP : ∀ s ctx, P s → P { s with ctx }) {α : Type}
    (x : StateM σ α) : Keeps P (onCtx x) := fun _ h => hP _ _ h

theorem keeps_runCompositeInner {P : JobRun σ D → Prop} {call : Call σ U D}
    (hP : ∀ s ctx, P s → P { s with ctx }) (hcall : ∀ uses, Keeps P (call uses)) (uses : U)
    (steps : List (RunnerStep U B)) : Keeps P (runCompositeInner env call uses steps) :=
  @closed_runCompositeInner σ U B D D env _ call call (closed_keeps P) (keeps_onCtx hP) hcall uses
    steps

/-- What neither the context, the depth nor a longer record takes away. -/
structure Lasting (P : JobRun σ D → Prop) : Prop where
  ctx : ∀ s ctx, P s → P { s with ctx }
  depth : ∀ s depth, P s → P { s with depth }
  log : ∀ s e, P s → P { s with log := s.log ++ [e] }

theorem keeps_executeAction {P : JobRun σ D → Prop} (hP : Lasting P) (fuel chain : ℕ) (uses : U) :
    Keeps P (executeAction acc env fuel chain uses) := by
  induction fuel generalizing chain uses with
  | zero => exact (Keeps.modify fun s => hP.log s _).bind fun _ => Keeps.pure _
  | succ fuel ih =>
    have henter : Keeps P (enterDepth acc (chain + 1) : StateM (JobRun σ D) _) := fun s h =>
      hP.depth s _ h
    have hdispatch (runs : RunsUsing U B) :
        Keeps P (dispatchAction acc env (executeAction acc env fuel (chain + 1)) chain uses runs) := by
      cases runs with
      | node => exact keeps_onCtx hP.ctx _
      | docker => exact keeps_onCtx hP.ctx _
      | composite steps =>
        refine henter.bind fun entered => ?_
        cases entered with
        | error e => exact (Keeps.modify fun s => hP.log s _).bind fun _ => Keeps.pure _
        | ok _ =>
          exact (Keeps.modify fun s => hP.log s _).bind fun _ =>
            (keeps_runCompositeInner hP.ctx (ih (chain + 1)) uses steps).bind fun _ =>
              (Keeps.modify fun s => hP.depth s _).bind fun _ => Keeps.pure _
    have hresolved : Keeps P
        (executeResolved acc env (executeAction acc env fuel (chain + 1)) chain uses) := by
      refine (keeps_onCtx hP.ctx _).bind fun resolved => ?_
      cases resolved with
      | error e => exact Keeps.pure _
      | ok runs => exact (hdispatch runs).bind fun _ => (keeps_onCtx hP.ctx _).bind fun _ =>
          Keeps.pure _
    intro s h
    rw [executeAction_run]
    exact hP.log _ _ (hresolved s h)

/-! ### The tracker stops every chain -/

/-- The tracker is at least so deep, and no chain has been lost. -/
structure AtLeast (max depth : ℕ) (s : JobRun σ DepthTracker) : Prop where
  depth : depth ≤ s.depth.current
  max : s.depth.max = max
  log : .lost ∉ s.log

theorem AtLeast.note {depth : ℕ} {s : JobRun σ DepthTracker} (h : AtLeast max depth s)
    {e : DepthEvent DepthTracker} (he : e ≠ .lost) :
    AtLeast max depth { s with log := s.log ++ [e] } where
  depth := h.depth
  max := h.max
  log := by
    rw [List.mem_append, List.mem_singleton, not_or]
    exact ⟨h.log, he.symm⟩

/-- A tracker is never left less deep, and lets no chain in that is longer than it may be. -/
theorem atLeast_executeAction {fuel chain depth : ℕ} (hfuel : chain + fuel = max + 1)
    (hchain : chain ≤ max) (hdepth : chain ≤ depth) (uses : U) :
    Keeps (AtLeast max depth) (executeAction tracked env fuel chain uses) := by
  induction fuel generalizing chain depth uses with
  | zero => omega
  | succ fuel ih =>
    have hctx {depth : ℕ} (s : JobRun σ DepthTracker) (ctx : σ) (h : AtLeast max depth s) :
        AtLeast max depth { s with ctx } := ⟨h.depth, h.max, h.log⟩
    have hcomposite (steps : List (RunnerStep U B)) : Keeps (AtLeast max depth)
        (runCompositeAction tracked env (executeAction tracked env fuel (chain + 1)) chain uses
          steps) := by
      intro s h
      have hmax := h.max
      have hcurrent := h.depth
      by_cases hdeep : s.depth.max < s.depth.current + 1
      · -- refused, and left one deeper
        rw [runCompositeAction_refused (DepthTracker.enter_of_full hdeep)]
        have hdeeper : AtLeast max depth
            { s with depth := { s.depth with current := s.depth.current + 1 } } :=
          ⟨Nat.le_succ_of_le h.depth, h.max, h.log⟩
        exact hdeeper.note nofun
      · have hroom : s.depth.current + 1 ≤ s.depth.max := Nat.not_lt.mp hdeep
        rw [runCompositeAction_entered (DepthTracker.enter_of_room hroom)]
        have hinner : Keeps (AtLeast max (depth + 1)) (runCompositeInner env
            (executeAction tracked env fuel (chain + 1)) uses steps) :=
          keeps_runCompositeInner hctx (ih (by omega) (by omega) (by omega)) uses steps
        have hdeeper : AtLeast max (depth + 1)
            { s with depth := { s.depth with current := s.depth.current + 1 } } :=
          ⟨Nat.succ_le_succ h.depth, h.max, h.log⟩
        have hout := hinner _ (hdeeper.note (e := .entered (chain + 1) false) nofun)
        refine ⟨?_, hout.max, hout.log⟩
        have hout' := hout.depth
        exact Nat.le_sub_one_of_lt hout'
    have hresolved : Keeps (AtLeast max depth)
        (executeResolved tracked env (executeAction tracked env fuel (chain + 1)) chain uses) := by
      refine (keeps_onCtx hctx _).bind fun resolved => ?_
      cases resolved with
      | error e => exact Keeps.pure _
      | ok runs =>
        refine Keeps.bind ?_ fun _ => (keeps_onCtx hctx _).bind fun _ => Keeps.pure _
        cases runs with
        | node => exact keeps_onCtx hctx _
        | docker => exact keeps_onCtx hctx _
        | composite steps => exact hcomposite steps
    intro s h
    rw [executeAction_run]
    exact (hresolved s h).note nofun

/-! ### Up to the first refusal -/

/-- What is to hold of everything that happens to the tracker. -/
def DepthEvent.Sound (max : ℕ) : DepthEvent DepthTracker → Prop
  | .entered chain refused => refused = true ↔ max < chain
  | .returned before after => after.current = before.current
  | .lost => False

def Balanced (max : ℕ) (s : JobRun σ DepthTracker) : Prop := ∀ e ∈ s.log, e.Sound max

/-- A composite has been refused for its chain. -/
def Refused (t : JobRun σ Unit) : Prop := ∃ chain, .entered chain true ∈ t.log

theorem Balanced.note {s : JobRun σ DepthTracker} (h : Balanced max s)
    {e : DepthEvent DepthTracker} (he : e.Sound max) :
    Balanced max { s with log := s.log ++ [e] } := by
  intro e' he'
  rcases List.mem_append.mp he' with hold | hnew
  · exact h e' hold
  · rwa [List.mem_singleton.mp hnew]

theorem not_balanced_note {s : JobRun σ DepthTracker} {e : DepthEvent DepthTracker}
    (he : ¬ e.Sound max) : ¬ Balanced max { s with log := s.log ++ [e] } := fun h =>
  he (h e (List.mem_append_right _ (List.mem_singleton_self e)))

theorem lasting_not_balanced : Lasting fun s : JobRun σ DepthTracker => ¬ Balanced max s where
  ctx _ _ h := h
  depth _ _ h := h
  log _ _ h := fun hnext => h fun e he => hnext e (List.mem_append_left _ he)

theorem lasting_refused : Lasting (Refused : JobRun σ Unit → Prop) where
  ctx _ _ h := h
  depth _ _ h := h
  log _ _ := fun ⟨chain, h⟩ => ⟨chain, List.mem_append_left _ h⟩

/-- The tracker counts the chain, and nothing has been refused. -/
structure Agree (max chain : ℕ) (s : JobRun σ DepthTracker) (t : JobRun σ Unit) : Prop where
  ctx : s.ctx = t.ctx
  depth : s.depth = ⟨chain, max⟩
  balanced : Balanced max s
  admitted : ¬ Refused t

/-- The same for the two computations of one step. -/
abbrev Alongside (max chain : ℕ) {α : Type} (x : StateM (JobRun σ DepthTracker) α)
    (y : StateM (JobRun σ Unit) α) : Prop :=
  Together (Agree max chain) (fun s => ¬ Balanced max s) Refused x y

theorem Agree.onCtx {chain : ℕ} {s : JobRun σ DepthTracker} {t : JobRun σ Unit}
    (h : Agree max chain s t) (ctx : σ) : Agree max chain { s with ctx } { t with ctx } :=
  ⟨rfl, h.depth, h.balanced, h.admitted⟩

theorem alongside_onCtx (chain : ℕ) {α : Type} (x : StateM σ α) :
    Alongside max chain (onCtx x) (onCtx x) where
  inStep s t h := by
    refine .inl ⟨?_, ?_⟩
    · show (x.run s.ctx).1 = (x.run t.ctx).1
      rw [h.ctx]
    · show Agree max chain { s with ctx := (x.run s.ctx).2 } { t with ctx := (x.run t.ctx).2 }
      rw [h.ctx]
      exact h.onCtx _
  keepsLeft := keeps_onCtx lasting_not_balanced.ctx x
  keepsRight := keeps_onCtx lasting_refused.ctx x

theorem executeResolved_run (call : Call σ U D) (chain : ℕ) (uses : U) (s : JobRun σ D) :
    (executeResolved acc env call chain uses).run s =
      match (env.resolveAction uses).run s.ctx with
      | (.error e, ctx) => (.error e, { s with ctx })
      | (.ok runs, ctx) =>
        let r := (dispatchAction acc env call chain uses runs).run { s with ctx }
        (r.1, { r.2 with ctx := (env.popStepEnv.run r.2.ctx).2 }) := by
  have hresolve : (onCtx (env.resolveAction uses) : StateM (JobRun σ D) _).run s =
      (((env.resolveAction uses).run s.ctx).1,
        { s with ctx := ((env.resolveAction uses).run s.ctx).2 }) := rfl
  rw [executeResolved, run_bind, hresolve]
  rcases (env.resolveAction uses).run s.ctx with ⟨_ | runs, ctx⟩ <;> rfl

/-- After an action, in one of three ways: nothing was refused; the action itself was, and has left
    the tracker one deeper; or one inside it was. -/
inductive Outcome (max chain : ℕ) (r : Except ActionError Conclusion × JobRun σ DepthTracker)
    (r' : Except ActionError Conclusion × JobRun σ Unit) : Prop
  | agree (same : r.1 = r'.1) (h : Agree max chain r.2 r'.2)
  | refused (deeper : r.2.depth.current = chain + 1) (h : Refused r'.2)
  | inside (h : ¬ Balanced max r.2) (h' : Refused r'.2)

theorem outcome_runCompositeAction {chain : ℕ} {call : Call σ U DepthTracker}
    {call' : Call σ U Unit} (hcall : chain + 1 ≤ max → ∀ uses, Alongside max (chain + 1) (call uses)
      (call' uses)) (uses : U) (steps : List (RunnerStep U B)) {s : JobRun σ DepthTracker}
    {t : JobRun σ Unit} (h : Agree max chain s t) :
    Outcome max chain ((runCompositeAction tracked env call chain uses steps).run s)
      ((runCompositeAction (nested max) env call' chain uses steps).run t) := by
  have hdepth := h.depth
  by_cases hchain : max < chain + 1
  · have henter : s.depth.enter =
        (.error (DepthTracker.limitExceeded max), ⟨chain + 1, max⟩) := by
      rw [hdepth]
      exact DepthTracker.enter_of_full hchain
    have henter' : (nested max).enter (chain + 1) t.depth =
        (.error (DepthTracker.limitExceeded max), ()) :=
      congrArg (·, ()) (if_pos hchain)
    rw [runCompositeAction_refused henter, runCompositeAction_refused henter']
    exact .refused rfl ⟨chain + 1, List.mem_append_right _ (List.mem_singleton_self _)⟩
  · have hroom : chain + 1 ≤ max := Nat.not_lt.mp hchain
    have henter : s.depth.enter = (.ok (), ⟨chain + 1, max⟩) := by
      rw [hdepth]
      exact DepthTracker.enter_of_room hroom
    have henter' : (nested max).enter (chain + 1) t.depth = (.ok (), ()) :=
      congrArg (·, ()) (if_neg hchain)
    rw [runCompositeAction_entered henter, runCompositeAction_entered henter']
    have hin : Agree max (chain + 1)
        { s with depth := ⟨chain + 1, max⟩, log := s.log ++ [.entered (chain + 1) false] }
        { t with depth := (), log := t.log ++ [.entered (chain + 1) false] } := by
      refine ⟨h.ctx, rfl, h.balanced.note ⟨nofun, fun hlt => absurd hlt hchain⟩, ?_⟩
      rintro ⟨chain', hmem⟩
      rcases List.mem_append.mp hmem with hold | hnew
      · exact h.admitted ⟨chain', hold⟩
      · cases List.mem_singleton.mp hnew
    have hinner : Alongside max (chain + 1) (runCompositeInner env call uses steps)
        (runCompositeInner env call' uses steps) :=
      closed_runCompositeInner (closed_together _ _ _) (alongside_onCtx (chain + 1)) (hcall hroom)
        uses steps
    rcases hinner.inStep _ _ hin with ⟨hsame, hagree⟩ | ⟨hlost, hrefused⟩
    · refine .agree hsame ⟨hagree.ctx, ?_, hagree.balanced, hagree.admitted⟩
      show DepthTracker.exit _ = _
      rw [hagree.depth]
      rfl
    · exact .inside hlost hrefused

theorem outcome_onCtx {chain : ℕ} (x : StateM σ (Except ActionError Conclusion))
    {s : JobRun σ DepthTracker} {t : JobRun σ Unit} (h : Agree max chain s t) :
    Outcome max chain ((onCtx x).run s) ((onCtx x).run t) := by
  rcases (alongside_onCtx chain x).inStep s t h with ⟨hsame, hagree⟩ | ⟨hlost, -⟩
  · exact .agree hsame hagree
  · exact absurd h.balanced hlost

theorem outcome_executeResolved {chain : ℕ} {call : Call σ U DepthTracker} {call' : Call σ U Unit}
    (hcall : chain + 1 ≤ max → ∀ uses, Alongside max (chain + 1) (call uses) (call' uses))
    (uses : U) {s : JobRun σ DepthTracker} {t : JobRun σ Unit} (h : Agree max chain s t) :
    Outcome max chain ((executeResolved tracked env call chain uses).run s)
      ((executeResolved (nested max) env call' chain uses).run t) := by
  have hdispatch (runs : RunsUsing U B) (ctx : σ) : Outcome max chain
      ((dispatchAction tracked env call chain uses runs).run { s with ctx })
      ((dispatchAction (nested max) env call' chain uses runs).run { t with ctx }) := by
    cases runs with
    | node => exact outcome_onCtx _ (h.onCtx ctx)
    | docker => exact outcome_onCtx _ (h.onCtx ctx)
    | composite steps => exact outcome_runCompositeAction hcall uses steps (h.onCtx ctx)
  rw [executeResolved_run, executeResolved_run, ← h.ctx]
  rcases (env.resolveAction uses).run s.ctx with ⟨e | runs, ctx⟩
  · exact .agree rfl (h.onCtx ctx)
  · cases hdispatch runs ctx with
    | agree same hagree =>
      refine .agree same ?_
      dsimp only
      rw [hagree.ctx]
      exact hagree.onCtx _
    | refused deeper hrefused => exact .refused deeper hrefused
    | inside hlost hrefused => exact .inside hlost hrefused

theorem alongside_executeAction {fuel chain : ℕ} (hfuel : chain + fuel = max + 1)
    (hchain : chain ≤ max) (uses : U) :
    Alongside max chain (executeAction tracked env fuel chain uses)
      (executeAction (nested max) env fuel chain uses) := by
  refine ⟨?_, keeps_executeAction lasting_not_balanced _ _ _,
    keeps_executeAction lasting_refused _ _ _⟩
  induction fuel generalizing chain uses with
  | zero => omega
  | succ fuel ih =>
    intro s t h
    have hcall : chain + 1 ≤ max → ∀ uses, Alongside max (chain + 1)
        (executeAction tracked env fuel (chain + 1) uses)
        (executeAction (nested max) env fuel (chain + 1) uses) := fun hroom uses =>
      ⟨ih (by omega) hroom uses, keeps_executeAction lasting_not_balanced _ _ _,
        keeps_executeAction lasting_refused _ _ _⟩
    rw [executeAction_run, executeAction_run]
    cases outcome_executeResolved hcall uses h with
    | agree same hagree =>
      refine .inl ⟨same, hagree.ctx, hagree.depth, hagree.balanced.note ?_, ?_⟩
      · show _ = _
        rw [hagree.depth, h.depth]
      · rintro ⟨chain', hmem⟩
        rcases List.mem_append.mp hmem with hold | hnew
        · exact hagree.admitted ⟨chain', hold⟩
        · cases List.mem_singleton.mp hnew
    | refused deeper hrefused =>
      refine .inr ⟨not_balanced_note fun hsound => ?_, lasting_refused.log _ _ hrefused⟩
      -- the action returns with the tracker one deeper than it found it
      have heq : chain + 1 = s.depth.current := deeper.symm.trans hsound
      rw [h.depth] at heq
      exact absurd heq (Nat.succ_ne_self chain)
    | inside hlost hrefused =>
      exact .inr ⟨lasting_not_balanced.log _ _ hlost, lasting_refused.log _ _ hrefused⟩

/-! ### Jobs -/

/-- The run of a job, from a new tracker. -/
def runJob (acc : Accounting D) (depth : D) (env : Surroundings σ U B) (max : ℕ)
    (steps : List (RunnerStep U B)) (ctx : σ) : JobRun σ D :=
  ((runSteps acc env (max + 1) steps).run ⟨ctx, depth, []⟩).2

/-- In every job the tracker stops every chain; every action returns with the tracker as it was, and
    is refused exactly for a chain that is too long, in the jobs in which no chain is. -/
theorem depth_balanced_iff (env : Surroundings σ U B) (max : ℕ) (steps : List (RunnerStep U B))
    (ctx : σ) :
    (.lost ∉ (runJob tracked ⟨0, max⟩ env max steps ctx).log) ∧
      (Balanced max (runJob tracked ⟨0, max⟩ env max steps ctx) ↔
        ¬ Refused (runJob (nested max) () env max steps ctx)) := by
  constructor
  · have hkeeps : Keeps (AtLeast (σ := σ) max 0) (runSteps tracked env (max + 1) steps) :=
      @closed_runSteps σ U B DepthTracker DepthTracker tracked tracked env _ (max + 1)
        (closed_keeps _) (keeps_onCtx fun s ctx h => ⟨h.depth, h.max, h.log⟩)
        (atLeast_executeAction (Nat.zero_add _) (Nat.zero_le _) le_rfl) steps
    exact (hkeeps ⟨ctx, ⟨0, max⟩, []⟩ ⟨le_rfl, rfl, nofun⟩).log
  · have htogether : Alongside max 0 (runSteps tracked env (max + 1) steps)
        (runSteps (nested max) env (max + 1) steps) :=
      closed_runSteps (closed_together _ _ _) (alongside_onCtx 0)
        (alongside_executeAction (Nat.zero_add _) (Nat.zero_le _)) steps
    have hstart : Agree max 0 (⟨ctx, ⟨0, max⟩, []⟩ : JobRun σ DepthTracker) ⟨ctx, (), []⟩ :=
      ⟨rfl, rfl, nofun, fun ⟨_, h⟩ => nomatch h⟩
    rcases htogether.inStep _ _ hstart with ⟨-, hagree⟩ | ⟨hlost, hrefused⟩
    · exact ⟨fun _ => hagree.admitted, fun _ => hagree.balanced⟩
    · exact ⟨fun h => absurd h hlost, fun h => absurd hrefused h⟩

/-! ### A chain that is too long -/

/-- Action `n` is a composite whose one step uses action `n - 1`; the last one is a node action. -/
def countdown : Surroundings Unit ℕ Unit where
  resolveAction
    | 0 => pure (.ok .node)
    | n + 1 => pure (.ok (.composite [⟨some n, ()⟩]))
  runResolvedNode _ := pure (.ok .success)
  runDockerAction _ := pure (.ok .success)
  popStepEnv := pure ()
  enterScope _ := pure (.ok ())
  leaveScope _ _ := pure (.ok ())
  isForced := pure false
  evaluateCompositeCondition _ := pure (.ok true)
  reportCompositeStepError _ := pure ()
  recordInnerResult _ _ _ := pure ()
  setScopeStatus _ := pure ()
  resolveContinueOnError _ := pure false
  buildNestedStep _ := pure (.ok ())
  recordNestedResult _ _ := pure ()
  runRunStep _ := pure none
  startStep _ := pure true
  recordStepResult _ _ := pure ()

/-- Eleven composites in a chain are one too many; after them ten are refused as well. -/
theorem ten_refused_after_eleven :
    (.entered 10 true ∈
      (runJob tracked .new countdown maxCompositeDepth [⟨some 11, ()⟩, ⟨some 10, ()⟩] ()).log) ∧
    ¬ Balanced maxCompositeDepth
      (runJob tracked .new countdown maxCompositeDepth [⟨some 11, ()⟩, ⟨some 10, ()⟩] ()) := by
  have hten : .entered 10 true ∈
      (runJob tracked .new countdown maxCompositeDepth [⟨some 11, ()⟩, ⟨some 10, ()⟩] ()).log := by
    decide +kernel
  refine ⟨hten, fun h => ?_⟩
  have hsound : true = true ↔ maxCompositeDepth < 10 := h _ hten
  exact absurd (hsound.mp rfl) (by decide)

end GhRunner.Execution.Depth
