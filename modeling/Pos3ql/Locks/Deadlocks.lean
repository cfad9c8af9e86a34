import Pos3ql.Locks.Invariants

/-!
# Deadlocks are found when a wait is registered

Row, relation and advisory waits share one graph. In every state reached a waiter waits for one
owner and nobody waits for itself through others, so a deadlock can only come with a new wait; the
walk from the owner waited for finds it before the wait is admitted. The graph has a place for each
connection the server admits: apply workers wait too and have no connection, so it can be full, and
then a wait is refused for that reason whether or not it would close a cycle.

* **`waits_acyclic_deadlock_iff`**: one wait each, no cycle, and when a wait is refused as a
  deadlock.
* **`waits_end_at_one_runner`**: whose turn it is.
* **`full_graph_hides_deadlock`**: a full graph, and a wait that would close a cycle.
-/

namespace Pos3ql

open Foundation Relation LockManager

/-- **In every state reached each waiter waits for one owner and the waits form no cycle. A wait is
refused as a deadlock exactly when there is a place for it and it would close a cycle; without a
place it is refused because the graph is full, and nothing changes.** -/
theorem waits_acyclic_deadlock_iff {s : LockSystem} (h : s.Reachable) :
    (s.locks.row.waits.items.map WaitEdge.waiter).Nodup ∧ Acyclic s.locks.row.WaitsFor ∧
      ∀ waiter blocker, ((s.locks.row.setWait waiter blocker).2 = .error deadlockDetected ↔
          s.locks.row.HasRoom waiter ∧ ¬Acyclic (Adding s.locks.row.WaitsFor waiter blocker)) ∧
        (¬s.locks.row.HasRoom waiter → s.locks.row.setWait waiter blocker =
          (s.locks.row, .error (waitGraphFull s.locks.row.waits.capacity))) := by
  have hsound := h.inv.locks.waits
  refine ⟨List.pairwise_map.mpr hsound.single, hsound.acyclic, fun waiter blocker => ⟨?_, ?_⟩⟩
  · exact setWait_deadlock_iff hsound
  · intro hfull
    simp only [setWait, registerWait_eq_none_iff.mpr hfull]

/-- **Some owner can always go on**: in every state reached, the waits from any owner lead to
exactly one owner that does not wait itself. Source: `set_wait`. -/
theorem waits_end_at_one_runner (s : {s : LockSystem // s.Reachable}) (waiter : WaitOwner) :
    ∃! runner, ReflTransGen s.1.locks.row.WaitsFor waiter runner ∧
      ∀ blocker, ¬s.1.locks.row.WaitsFor runner blocker := by
  have hsound := s.2.inv.locks.waits
  refine hsound.acyclic.existsUnique_end (fun x y z hy hz => ?_) waiter
  rw [← waitsFor_iff_nextBlocker hsound.single] at hy hz
  exact Option.some.inj (hy.symm.trans hz)

/-- A backend and an apply worker, on a server that admits one connection: each locks a table, and
the backend waits for the worker's. -/
def workerCalls : List LockCall :=
  [.start 1, .start 0, .lockObject 1 (.table 0) .accessExclusive false,
    .lockObject 2 (.table 1) .rowExclusive false, .lockObject 1 (.table 1) .accessExclusive false]

/-- The state they reach. -/
def workerSystem : LockSystem :=
  LockSystem.runAll workerCalls (LockSystem.new ⟨4, 8, 8, 8, 1⟩ .mvcc)

lemma workerSystem_reachable : workerSystem.Reachable :=
  ⟨⟨4, 8, 8, 8, 1⟩, .mvcc, workerCalls, by decide +kernel, rfl⟩

lemma workerSystem_waits :
    workerSystem.locks.row.waits.items = [⟨connectionWaitOwner 1, preparedWaitOwner 2⟩] := by
  decide +kernel

lemma workerSystem_closes :
    ¬Acyclic
      (Adding workerSystem.locks.row.WaitsFor (preparedWaitOwner 2) (connectionWaitOwner 1)) := by
  intro hacyc
  have hwaits : workerSystem.locks.row.WaitsFor (connectionWaitOwner 1) (preparedWaitOwner 2) := by
    exact List.mem_singleton.mpr rfl
  have hne := connectionWaitOwner_ne_prepared 1 2
  exact hacyc (preparedWaitOwner 2) (.tail (.single (.inl ⟨rfl, rfl⟩)) (.inr ⟨hne, hwaits⟩))

/-- **A full graph hides a deadlock.** The worker asks for the backend's table: the wait would close
a cycle, and is refused because the graph is full. -/
theorem full_graph_hides_deadlock :
    workerSystem.Reachable ∧
      ¬Acyclic
        (Adding workerSystem.locks.row.WaitsFor (preparedWaitOwner 2) (connectionWaitOwner 1)) ∧
      (workerSystem.locks.row.setWait (preparedWaitOwner 2) (connectionWaitOwner 1)).2 =
        .error (waitGraphFull 1) ∧
      (workerSystem.lockObject 2 (.table 0) .rowExclusive false).2 = .error (waitGraphFull 1) :=
  ⟨workerSystem_reachable, workerSystem_closes, by decide +kernel, by decide +kernel⟩

/-- The backend's own waits have a place, and one for itself would be refused as a deadlock. -/
theorem waits_acyclic_deadlock_iff_worker :
    (workerSystem.locks.row.setWait (connectionWaitOwner 1) (connectionWaitOwner 1)).2 =
      .error deadlockDetected := by
  refine (((waits_acyclic_deadlock_iff workerSystem_reachable).2.2 _ _).1).mpr ⟨?_, fun hacyc => ?_⟩
  · refine .inl ⟨preparedWaitOwner 2, ?_⟩
    rw [WaitsFor, workerSystem_waits]
    exact List.mem_singleton.mpr rfl
  · exact hacyc (connectionWaitOwner 1) (.single (.inl ⟨rfl, rfl⟩))

end Pos3ql
