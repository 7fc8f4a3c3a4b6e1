import BanyanSchema.Concurrency
import BanyanSchema.Session

namespace BanyanSchema

open Etcd

/-! # Keys hold their own messages across interleavings

A call in flight carries what it will write: once an update has read, it plans
to put the marshalling of its message under that message's own key, and a
delete or a group delete only removes keys. So however clients interleave
their round trips, a store whose every live key holds its own message stays
so.
-/

variable {V : Type} {c : Codec V}

/-- What an update's read planned to write: the message's own key and its
marshalling. -/
def UpdatePlan.Writes (c : Codec V) (message : Message) : UpdatePlan V → Prop
  | .returned _ => True
  | .put key val | .txn key _ val => key = message.envelope.key ∧ c.marshal message = .ok val

/-- A call as `Update…`, `Delete…` and `DeleteGroup` issue it: an update
carries the envelope of a message satisfying `P`, and once it has read, it
plans to write that message under its own key. -/
def Call.Writes (c : Codec V) (P : Message → Prop) : Call V → Prop
  | .update _ metadata => ∃ message, P message ∧ metadata = message.envelope
  | .updating _ metadata plan =>
      ∃ message, P message ∧ metadata = message.envelope ∧ plan.Writes c message
  | _ => True

theorem updateRead_writes (c : Codec V) (ctx : Context) (message : Message) (kv : Store V) :
    (updateRead c ctx message.envelope kv).Writes c message := by
  rcases updateRead_cases c ctx message.envelope kv with ⟨_, read⟩ | ⟨-, -, -, -, -, -, read⟩ |
    ⟨-, -, spec, val, given, marshalled, read⟩ | ⟨-, e, spec, val, -, -, given, marshalled, -, -, read⟩
  all_goals rw [read]
  all_goals try trivial
  all_goals rw [envelope_spec, Option.some_inj] at given; subst given
  · exact ⟨rfl, marshalled⟩
  · exact ⟨rfl, marshalled⟩

/-- Everything the write half of `update` can do: nothing, or put the planned
value under the planned key and notify. -/
theorem updateCommit_cases (handlers : List EventHandler) (ctx : Context) (metadata : Metadata)
    (plan : UpdatePlan V) (kv : Store V) :
    ((updateCommit handlers ctx metadata plan kv).kv = kv ∧
      (updateCommit handlers ctx metadata plan kv).notifications = []) ∨
    ∃ key val, (plan = .put key val ∨ ∃ r, plan = .txn key r val) ∧
      (updateCommit handlers ctx metadata plan kv).kv = kv.put key val ∧
      (updateCommit handlers ctx metadata plan kv).notifications = notifyUpdate handlers metadata := by
  cases plan with
  | returned => exact .inl ⟨rfl, rfl⟩
  | put key val =>
      cases live : ctx.err with
      | some err => exact .inl (by simp [updateCommit, Etcd.put, guarded, live])
      | none => exact .inr ⟨key, val, .inl rfl, by rw [updateCommit_put _ live]; exact ⟨rfl, rfl⟩⟩
  | txn key r val =>
      rw [updateCommit_txn]
      split
      · exact .inr ⟨key, val, .inr ⟨r, rfl⟩, rfl, rfl⟩
      · exact .inl ⟨rfl, rfl⟩

theorem updateCommit_of_writes {message : Message} {plan : UpdatePlan V} (planned : plan.Writes c message)
    (handlers : List EventHandler) (ctx : Context) (metadata : Metadata) (kv : Store V) :
    ((updateCommit handlers ctx metadata plan kv).kv = kv ∧
      (updateCommit handlers ctx metadata plan kv).notifications = []) ∨
    ∃ val, c.marshal message = .ok val ∧
      (updateCommit handlers ctx metadata plan kv).kv = kv.put message.envelope.key val ∧
      (updateCommit handlers ctx metadata plan kv).notifications = notifyUpdate handlers metadata := by
  rcases updateCommit_cases handlers ctx metadata plan kv with unchanged | ⟨key, val, made, wrote⟩
  · exact .inl unchanged
  · obtain ⟨rfl, marshalled⟩ : key = message.envelope.key ∧ c.marshal message = .ok val := by
      rcases made with rfl | ⟨r, rfl⟩ <;> exact planned
    exact .inr ⟨val, marshalled, wrote⟩

theorem deleteGroupCommit_cases (handlers : List EventHandler) (ctx : Context) (group : List UInt8)
    (g : Message) (kv : Store V) :
    ((deleteGroupCommit handlers ctx group g kv).kv = kv ∧
      (deleteGroupCommit handlers ctx group g kv).notifications = []) ∨
    ((deleteGroupCommit handlers ctx group g kv).kv =
        kv.eraseRange (groupKeyPrefix g) (incrementLastByte (groupKeyPrefix g)) ∧
      (deleteGroupCommit handlers ctx group g kv).notifications =
        notifyDelete handlers { kind := .group, name := group, group := [], spec := some g }) := by
  unfold deleteGroupCommit Etcd.deleteRange guarded
  cases ctx.err with
  | some err => exact .inl ⟨rfl, rfl⟩
  | none =>
      dsimp only
      split
      · exact .inr ⟨rfl, rfl⟩
      · rename_i empty
        refine .inl ⟨if_pos ?_, rfl⟩
        simpa [List.isEmpty_iff, List.length_pos] using empty

section Stored

variable {P : Message → Prop} {kv : Store V}

theorem Stored.put (stored : Stored c P kv) {message : Message} (holds : P message) {val : V}
    (marshalled : c.marshal message = .ok val) : Stored c P (kv.put message.envelope.key val) := by
  intro key entry found
  by_cases own : key = message.envelope.key
  · subst own
    rw [Store.lookup_put_self, Option.some_inj] at found
    exact ⟨message, holds, found ▸ marshalled, rfl⟩
  · exact stored key entry (by rwa [Store.lookup_put_ne _ _ own] at found)

theorem Stored.erase (stored : Stored c P kv) (key : List UInt8) : Stored c P (kv.erase key) := by
  intro k entry found
  rw [Store.lookup_erase] at found
  split at found
  · cases found
  · exact stored k entry found

theorem Stored.eraseRange (stored : Stored c P kv) (key rangeEnd : List UInt8) :
    Stored c P (kv.eraseRange key rangeEnd) := by
  intro k entry found
  rw [Store.lookup_eraseRange] at found
  split at found
  · cases found
  · exact stored k entry found

theorem Call.Writes.step {call : Call V} (writes : call.Writes c P) (handlers : List EventHandler)
    (stored : Stored c P kv) :
    (call.step c handlers kv).call.Writes c P ∧ Stored c P (call.step c handlers kv).kv := by
  cases call with
  | update ctx metadata =>
      obtain ⟨message, holds, rfl⟩ := writes
      exact ⟨⟨message, holds, rfl, updateRead_writes c ctx message kv⟩, stored⟩
  | updating ctx metadata plan =>
      obtain ⟨message, holds, -, planned⟩ := writes
      refine ⟨trivial, ?_⟩
      show Stored c P (updateCommit handlers ctx metadata plan kv).kv
      rcases updateCommit_of_writes planned handlers ctx metadata kv with ⟨same, -⟩ |
        ⟨val, marshalled, wrote, -⟩
      · rw [same]
        exact stored
      · rw [wrote]
        exact stored.put holds marshalled
  | delete ctx metadata =>
      refine ⟨trivial, ?_⟩
      show Stored c P (BanyanSchema.delete c ⟨kv, handlers⟩ ctx metadata).kv
      rcases delete_kv c ⟨kv, handlers⟩ ctx metadata with same | erased
      · rw [same]
        exact stored
      · rw [erased]
        exact stored.erase _
  | deleteGroup ctx group =>
      simp only [Call.step]
      split <;> exact ⟨trivial, stored⟩
  | deletingGroup ctx group g =>
      refine ⟨trivial, ?_⟩
      show Stored c P (deleteGroupCommit handlers ctx group g kv).kv
      rcases deleteGroupCommit_cases handlers ctx group g kv with ⟨same, -⟩ | ⟨erased, -⟩
      · rw [same]
        exact stored
      · rw [erased]
        exact stored.eraseRange _ _
  | updated => exact ⟨writes, stored⟩
  | deleted => exact ⟨writes, stored⟩

end Stored

namespace World

variable {w : World V}

theorem step_calls_forall {Q : Call V → Prop} (all : ∀ (j : Nat) (call : Call V), w.calls[j]? = some call → Q call)
    {i : Nat} {call : Call V} (found : w.calls[i]? = some call)
    (moved : Q (call.step c w.handlers w.kv).call) :
    ∀ (j : Nat) (call' : Call V), (w.step c i).calls[j]? = some call' → Q call' := by
  intro j call' at'
  rw [step_calls found] at at'
  split at at'
  · cases at'
    exact moved
  · exact all j call' at'

theorem step_stored {P : Message → Prop} (stored : Stored c P w.kv)
    (writes : ∀ (j : Nat) (call : Call V), w.calls[j]? = some call → call.Writes c P) (i : Nat) :
    Stored c P (w.step c i).kv ∧ ∀ (j : Nat) (call : Call V), (w.step c i).calls[j]? = some call → call.Writes c P := by
  cases found : w.calls[i]? with
  | none => simpa only [step, found] using And.intro stored writes
  | some call =>
      obtain ⟨moved, stored'⟩ := (writes i call found).step w.handlers stored
      exact ⟨by rw [step_of_call found]; exact stored', step_calls_forall writes found moved⟩

end World

/-- Across every interleaving of calls the write API issued, every live key
holds the marshalling of a message whose own key it is, and which satisfies
`P`, when the store started so and every update in flight writes such
messages: no interleaving makes a key hold another entity's message, or a
message no client sent. -/
theorem stored_across_interleavings (c : Codec V) {P : Message → Prop} (w : World V)
    (stored : Stored c P w.kv) (writes : ∀ (i : Nat) (call : Call V), w.calls[i]? = some call → call.Writes c P)
    (schedule : List Nat) :
    Stored c P (w.run c schedule).kv ∧
      ∀ (i : Nat) (call : Call V), (w.run c schedule).calls[i]? = some call → call.Writes c P := by
  induction schedule generalizing w with
  | nil => exact ⟨stored, writes⟩
  | cons i rest ih =>
      obtain ⟨stored', writes'⟩ := w.step_stored stored writes i
      exact ih _ stored' writes'

theorem stored_across_raceWorld :
    Stored Codec.identity Message.Plain raceWorld.kv ∧
    (∀ (i : Nat) (call : Call Message), raceWorld.calls[i]? = some call → call.Writes Codec.identity Message.Plain) ∧
    Stored Codec.identity Message.Plain (raceWorld.run Codec.identity [0, 1, 0, 1]).kv :=
  have stored : Stored Codec.identity Message.Plain raceWorld.kv := fun _ _ found => by
    simp [raceWorld] at found
  have writes : ∀ (i : Nat) (call : Call Message), raceWorld.calls[i]? = some call → call.Writes Codec.identity Message.Plain := by
    intro i call found
    rcases i with _ | _ | i <;> simp only [raceWorld, List.getElem?_cons_zero, List.getElem?_cons_succ,
      List.getElem?_nil, Option.some.injEq, reduceCtorEq] at found <;> subst found <;>
      exact ⟨.stream (raceStream _), by decide, rfl⟩
  ⟨stored, writes, (stored_across_interleavings Codec.identity raceWorld stored writes [0, 1, 0, 1]).1⟩

end BanyanSchema
