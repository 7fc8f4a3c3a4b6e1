import BanyanSchema.Concurrency
import BanyanSchema.Notifications

namespace BanyanSchema

open Etcd

/-! # Failed and cancelled calls

A registry call that returns an error has changed nothing: every error exit
of `update`, `delete` and `DeleteGroup` comes before their write or from a
write the server refused, and the compare-and-swap that loses writes nothing.
Cancellation is another matter: the replace path commits its compare-and-swap
with `context.Background()`, so a caller that cancels after the read still has
its value written. A caller may cancel its call's context at any point of the
run, and the steps left make their substrate calls with it; a call is aborted
when it will fail without a write whatever the other clients do.
-/

variable {V : Type}

section Failures

variable {handlers : List EventHandler} {ctx : Context} {kv : Store V} {err : Error}

theorem Outcome.unchanged_of_eq {α : Type} {r : Outcome V α} (same : r = ⟨.error err, kv, []⟩) :
    r.kv = kv ∧ r.notifications = [] := by
  subst same
  exact ⟨rfl, rfl⟩

theorem updateCommit_failed {metadata : Metadata} {plan : UpdatePlan V}
    (failed : (updateCommit handlers ctx metadata plan kv).result = .error err) :
    updateCommit handlers ctx metadata plan kv = ⟨.error err, kv, []⟩ := by
  cases plan with
  | returned result =>
      cases failed
      rfl
  | put key val =>
      simp only [updateCommit, Etcd.put, guarded] at failed ⊢
      split at failed
      · cases failed
        rfl
      · cases failed
  | txn key r val =>
      rw [updateCommit_txn] at failed ⊢
      split at failed
      · cases failed
      · rw [if_neg ‹_›]
        cases failed
        rfl

theorem deleteGroupCommit_failed {group : List UInt8} {g : Message}
    (failed : (deleteGroupCommit handlers ctx group g kv).result = .error err) :
    deleteGroupCommit handlers ctx group g kv = ⟨.error err, kv, []⟩ := by
  simp only [deleteGroupCommit, Etcd.deleteRange, guarded] at failed ⊢
  split at failed
  · cases failed
    rfl
  · cases failed

theorem deleteGroup_failed {c : Codec V} {group : List UInt8}
    (failed : (deleteGroup c ⟨kv, handlers⟩ ctx group).result = .error err) :
    deleteGroup c ⟨kv, handlers⟩ ctx group = ⟨.error err, kv, []⟩ := by
  unfold deleteGroup at failed ⊢
  split at failed
  · cases failed
    rfl
  · exact deleteGroupCommit_failed failed

theorem delete_failed {c : Codec V} {metadata : Metadata} (entity : metadata.kind ≠ .group)
    (failed : (delete c ⟨kv, handlers⟩ ctx metadata).result ≠ .ok true) :
    (delete c ⟨kv, handlers⟩ ctx metadata).kv = kv ∧
      (delete c ⟨kv, handlers⟩ ctx metadata).notifications = [] := by
  rcases delete_cases c ⟨kv, handlers⟩ ctx metadata with ⟨err, -, same⟩ | ⟨-, absent, same⟩ |
    ⟨-, prev, -, same⟩
  · exact Outcome.unchanged_of_eq same
  · rw [same]
    exact ⟨Store.erase_of_absent absent, rfl⟩
  · rw [deleteNotifications_of_entity c _ entity] at same
    rw [same] at failed
    exact absurd rfl failed

end Failures

/-- Every error exit of `update`, `delete` and `DeleteGroup`, and of the write
halves that run after a read made on an earlier store, and every delete that
returns false, leaves the store as it was and calls no handler. -/
theorem failed_mutations_are_atomic (c : Codec V) (handlers : List EventHandler) (kv : Store V) :
    (∀ ctx metadata err, (update c ⟨kv, handlers⟩ ctx metadata).result = .error err →
      (update c ⟨kv, handlers⟩ ctx metadata).kv = kv ∧
        (update c ⟨kv, handlers⟩ ctx metadata).notifications = []) ∧
    (∀ ctx metadata (plan : UpdatePlan V) err,
      (updateCommit handlers ctx metadata plan kv).result = .error err →
        (updateCommit handlers ctx metadata plan kv).kv = kv ∧
          (updateCommit handlers ctx metadata plan kv).notifications = []) ∧
    (∀ ctx metadata, metadata.kind ≠ .group → (delete c ⟨kv, handlers⟩ ctx metadata).result ≠ .ok true →
      (delete c ⟨kv, handlers⟩ ctx metadata).kv = kv ∧
        (delete c ⟨kv, handlers⟩ ctx metadata).notifications = []) ∧
    (∀ ctx group err, (deleteGroup c ⟨kv, handlers⟩ ctx group).result = .error err →
      (deleteGroup c ⟨kv, handlers⟩ ctx group).kv = kv ∧
        (deleteGroup c ⟨kv, handlers⟩ ctx group).notifications = []) ∧
    (∀ ctx group g err, (deleteGroupCommit handlers ctx group g kv).result = .error err →
      (deleteGroupCommit handlers ctx group g kv).kv = kv ∧
        (deleteGroupCommit handlers ctx group g kv).notifications = []) :=
  ⟨fun _ _ _ failed => Outcome.unchanged_of_eq (updateCommit_failed failed),
    fun _ _ _ _ failed => Outcome.unchanged_of_eq (updateCommit_failed failed),
    fun _ _ entity failed => delete_failed entity failed,
    fun _ _ _ failed => Outcome.unchanged_of_eq (deleteGroup_failed failed),
    fun _ _ _ _ failed => Outcome.unchanged_of_eq (deleteGroupCommit_failed failed)⟩

/-- The caller's `cancel()`: from then on `Err()` returns `context.Canceled`,
unless the context had already failed. -/
def Context.cancel (ctx : Context) : Context :=
  ⟨some (ctx.err.getD (.context "context canceled"))⟩

def Call.cancel : Call V → Call V
  | .update ctx metadata => .update ctx.cancel metadata
  | .updating ctx metadata plan => .updating ctx.cancel metadata plan
  | .delete ctx metadata => .delete ctx.cancel metadata
  | .deleteGroup ctx group => .deleteGroup ctx.cancel group
  | .deletingGroup ctx group g => .deletingGroup ctx.cancel group g
  | call => call

def World.cancel (w : World V) (i : Nat) : World V :=
  { w with calls := w.calls.modify Call.cancel i }

/-- A call that will return an error without writing: its context failed
before its write was issued, or its error is decided. -/
def Call.Aborted : Call V → Prop
  | .update ctx _ | .delete ctx _ | .deleteGroup ctx _ | .deletingGroup ctx _ _ => ctx.err.isSome
  | .updating ctx _ (.put ..) => ctx.err.isSome
  | .updating _ _ (.returned result) => ∃ err, result = .error err
  | .updating _ _ (.txn ..) => False
  | .updated _ _ result => ∃ err, result = .error err
  | .deleted result => ∃ err, result = .error err

/-- An aborted call's step writes nothing, calls no handler and leaves it
aborted. -/
theorem Call.Aborted.step {call : Call V} (aborted : call.Aborted) (c : Codec V)
    (handlers : List EventHandler) (kv : Store V) :
    (call.step c handlers kv).call.Aborted ∧ (call.step c handlers kv).kv = kv ∧
      (call.step c handlers kv).notifications = [] := by
  cases call with
  | update ctx | delete ctx | deleteGroup ctx | deletingGroup ctx =>
      obtain ⟨err, failed⟩ := Option.isSome_iff_exists.mp aborted
      simp only [Call.step, updateRead, BanyanSchema.delete, getGroup, get, deleteGroupCommit, Etcd.get,
        Etcd.delete, Etcd.deleteRange, guarded, failed, and_self, and_true]
      exact ⟨_, rfl⟩
  | updating ctx metadata plan =>
      cases plan with
      | returned result =>
          obtain ⟨err, rfl⟩ := aborted
          exact ⟨⟨err, rfl⟩, rfl, rfl⟩
      | put key val =>
          obtain ⟨err, failed⟩ := Option.isSome_iff_exists.mp aborted
          simp only [Call.step, updateCommit, Etcd.put, guarded, failed, and_self, and_true]
          exact ⟨err, rfl⟩
      | txn => exact aborted.elim
  | updated | deleted => exact ⟨aborted, rfl, rfl⟩

theorem Call.cancel_aborted {call : Call V}
    (before : call.issued ∨ (∃ ctx metadata key val, call = .updating ctx metadata (.put key val)) ∨
      ∃ ctx group g, call = .deletingGroup ctx group g) :
    call.cancel.Aborted := by
  rcases before with issued | ⟨ctx, metadata, key, val, rfl⟩ | ⟨ctx, group, g, rfl⟩
  · cases call <;> first | rfl | cases issued
  · rfl
  · rfl

namespace World

variable {c : Codec V} {w : World V} {i : Nat} {call : Call V}

theorem step_aborted (aborted : ∀ call, w.calls[i]? = some call → call.Aborted) :
    (w.step c i).kv = w.kv ∧ (w.step c i).log = w.log := by
  cases found : w.calls[i]? with
  | none => simp only [step, found, and_self]
  | some call =>
      obtain ⟨-, same, quiet⟩ := (aborted call found).step c w.handlers w.kv
      rw [step_of_call found]
      exact ⟨same, by simp only [quiet, List.map_nil, List.append_nil]⟩

theorem run_aborted (aborted : ∀ call, w.calls[i]? = some call → call.Aborted)
    (schedule : List Nat) : ∀ call, (w.run c schedule).calls[i]? = some call → call.Aborted := by
  induction schedule generalizing w with
  | nil => exact aborted
  | cons j rest ih =>
      refine ih fun call found => ?_
      by_cases same : i = j
      · subst same
        cases before : w.calls[i]? with
        | none =>
            rw [show w.step c i = w by simp only [step, before]] at found
            exact aborted call found
        | some call₀ =>
            rw [step_calls_self before, Option.some_inj] at found
            exact found ▸ ((aborted call₀ before).step c w.handlers w.kv).1
      · exact aborted call (by rwa [step_calls_ne w same] at found)

/-- Cancellation before the write is honoured on every path but the
compare-and-swap: a client cancelled there stays aborted through every
interleaving, and at every point its step writes nothing and calls no handler. -/
theorem cancel_before_write (found : w.calls[i]? = some call)
    (before : call.issued ∨ (∃ ctx metadata key val, call = .updating ctx metadata (.put key val)) ∨
      ∃ ctx group g, call = .deletingGroup ctx group g) (schedule : List Nat) :
    (∀ call', ((w.cancel i).run c schedule).calls[i]? = some call' → call'.Aborted) ∧
    (((w.cancel i).run c schedule).step c i).kv = ((w.cancel i).run c schedule).kv ∧
    (((w.cancel i).run c schedule).step c i).log = ((w.cancel i).run c schedule).log := by
  have cancelled : ∀ call', (w.cancel i).calls[i]? = some call' → call'.Aborted := by
    intro call' at'
    rw [World.cancel, List.getElem?_modify_eq, found, Option.map_eq_map, Option.map_some',
      Option.some_inj] at at'
    exact at' ▸ Call.cancel_aborted before
  have always := (w.cancel i).run_aborted (c := c) cancelled schedule
  exact ⟨always, step_aborted always⟩

end World

theorem cancel_before_write_replaceStream :
    replaceStream.calls[0]? = some (.update .background (raceUpdate [2])) ∧
    (∀ call', ((replaceStream.cancel 0).run Codec.identity [0, 0]).calls[0]? = some call' → call'.Aborted) ∧
    (((replaceStream.cancel 0).run Codec.identity [0, 0]).step Codec.identity 0).kv =
      ((replaceStream.cancel 0).run Codec.identity [0, 0]).kv ∧
    (((replaceStream.cancel 0).run Codec.identity [0, 0]).step Codec.identity 0).log =
      ((replaceStream.cancel 0).run Codec.identity [0, 0]).log :=
  ⟨rfl, World.cancel_before_write
    (show replaceStream.calls[0]? = some (.update .background (raceUpdate [2])) from rfl) (.inl rfl) [0, 0]⟩

/-- The client reads, its caller cancels, and it commits: the compare-and-swap,
issued with `context.Background()`, still writes the new stream and notifies,
and the call returns nil. -/
theorem update_commits_after_cancel :
    (((replaceStream.step Codec.identity 0).cancel 0).step Codec.identity 0).calls[0]? =
      some (.updated (raceUpdate [2]) (.txn raceKey 2 (.stream (raceStream [2]))) (.ok ())) ∧
    ((((replaceStream.step Codec.identity 0).cancel 0).step Codec.identity 0).kv.lookup raceKey).map
        (·.value) = some (.stream (raceStream [2])) ∧
    (((replaceStream.step Codec.identity 0).cancel 0).step Codec.identity 0).log.length = 1 :=
  ⟨rfl, rfl, rfl⟩

end BanyanSchema
