import ApexStore.Engine.BackgroundRanges

/-!
# Two ways to compact

`compact_cf` merges all groups of a family under the lock; `maybe_compact`
plans, merges group by group and installs.  If nothing comes in between and no
group fails, both lead to the same engine.
-/

namespace ApexStore.SharedEngine

open Function VersionSet

variable {options : EngineOptions} {state : SharedEngine} {thread : Nat}

/-- Phase 2, group after group, is the loop of `compact_cf_core`. -/
theorem foldl_merge {compaction : BackgroundCompaction} {jobs : List CompactionJob}
    {outputs : List Replacement} {written : SstDir}
    (running : state.compactions thread = some compaction)
    (groups : compaction.groups = jobs.map (·.1))
    (done : compactGroups compaction.strategy options.storage compaction.tables
      compaction.tombstones state.core.store.dir jobs = (.ok outputs, written)) :
    (jobs.map (fun job => .merge thread job.2)).foldl
      (BackgroundOp.step options) state =
      { state with
        core := { state.core with store := { state.core.store with dir := written } }
        compactions := update state.compactions thread (some
          { compaction with groups := [], results := compaction.results ++ outputs }) } := by
  induction jobs generalizing state compaction outputs with
  | nil =>
    cases done
    have whole := update_eq_self thread state.compactions
    rw [running] at whole
    rw [List.append_nil, ← show compaction.groups = [] from groups, whole]
    rfl
  | cons job jobs ih =>
    rw [compactGroups] at done
    split at done
    · cases done
    next first dir merged =>
      split at done
      · cases done
      next rest _ later =>
        cases done
        rw [List.map_cons, List.foldl_cons, BackgroundOp.step, SharedEngine.merge, running]
        simp only [BackgroundCompaction.mergeNext, groups, List.map_cons, merged]
        rw [ih (update_self ..) rfl later]
        simp only [update_idem, List.append_assoc, List.singleton_append]

theorem background_eq_compactCf {plan : CompactionPlan} {cf : String}
    (idle : state.compactions thread = none)
    (planned : (BackgroundCompaction.plan options state.core plan.strategy cf).isSome)
    (picked : plan.strategy.pickTables (state.core.store.versions.getTables cf) =
      plan.jobs.map (·.1))
    (succeeds : (compactGroups plan.strategy options.storage
      (state.core.store.versions.getTables cf) (state.core.rangesOf cf)
      state.core.store.dir plan.jobs).1.isOk) :
    ((plan.jobs.map (fun job => .merge thread job.2)).foldl (BackgroundOp.step options)
        (state.plan options thread plan.strategy cf)).install thread =
      { state with core := state.core.compactCf options cf plan } := by
  obtain ⟨compaction, planned⟩ := Option.isSome_iff_exists.mp planned
  have unchanged := update_eq_self thread state.compactions
  rw [idle] at unchanged
  rw [SharedEngine.plan, idle, planned, BackgroundCompaction.eq_of_plan planned]
  rcases done : compactGroups plan.strategy options.storage
    (state.core.store.versions.getTables cf) (state.core.rangesOf cf)
    state.core.store.dir plan.jobs with ⟨error | outputs, written⟩
  · rw [done] at succeeds
    cases succeeds
  · dsimp only
    rw [foldl_merge (update_self ..) picked done]
    simp only [install, update_self, update_idem, unchanged, ne_eq, not_true_eq_false,
      if_false]
    rw [EngineCore.compactCf, compactCfCore_eq_install done]
    rfl

theorem background_eq_compactCf_twoTables :
    let plan : CompactionPlan :=
      { strategy := .sizeTiered .default, tombstones := []
        jobs := [([0, 1], { timestamp := 40, stamp := fun _ => 40 })] }
    ((plan.jobs.map (fun job => .merge 0 job.2)).foldl (BackgroundOp.step twoTables.1)
        ((start twoTables.2).plan twoTables.1 0 plan.strategy "default")).install 0 =
      start (twoTables.2.compactCf twoTables.1 "default" plan) :=
  background_eq_compactCf rfl (by decide +kernel) (by decide +kernel) (by decide +kernel)

end ApexStore.SharedEngine
