import BanyanSchema.Registry

namespace BanyanSchema

open Etcd

/-! # Sequential runs of the write API

A client's calls to `UpdateGroup`, `UpdateStream`, …, `DeleteStream`, …,
`DeleteGroup`, one after the other, each on the store the previous call left.
`Reachable` is every store such runs build from a fresh server when each call
meets a condition, and `Stored` is the invariant that every live key holds the
marshalling of a message whose own key it is.
-/

variable {V : Type}

/-- A call of the registry's write API. `update` stands for the `Update…` of the
message's kind. -/
inductive Op where
  | update (ctx : Context) (message : Message)
  | deleteMeasure (ctx : Context) (metadata : Option Commonv1.Metadata)
  | deleteStream (ctx : Context) (metadata : Option Commonv1.Metadata)
  | deleteIndexRuleBinding (ctx : Context) (metadata : Option Commonv1.Metadata)
  | deleteIndexRule (ctx : Context) (metadata : Option Commonv1.Metadata)
  | deleteGroup (ctx : Context) (group : List UInt8)

def Outcome.effect {α : Type} (o : Outcome V α) : Store V × List Notification :=
  (o.kv, o.notifications)

/-- The store a call leaves and the callbacks it makes. -/
def Op.exec (c : Codec V) (e : Registry V) : Op → Store V × List Notification
  | .update ctx message => (updateMessage c e ctx message).effect
  | .deleteMeasure ctx metadata => (BanyanSchema.deleteMeasure c e ctx metadata).effect
  | .deleteStream ctx metadata => (BanyanSchema.deleteStream c e ctx metadata).effect
  | .deleteIndexRuleBinding ctx metadata => (BanyanSchema.deleteIndexRuleBinding c e ctx metadata).effect
  | .deleteIndexRule ctx metadata => (BanyanSchema.deleteIndexRule c e ctx metadata).effect
  | .deleteGroup ctx group => (BanyanSchema.deleteGroup c e ctx group).effect

/-- Calls one after the other on one registry: the last store, and every
callback in call order. -/
def Op.run (c : Codec V) (e : Registry V) : List Op → Store V × List Notification
  | [] => (e.kv, [])
  | op :: ops =>
      let step := op.exec c e
      let rest := Op.run c ⟨step.1, e.handlers⟩ ops
      (rest.1, step.2 ++ rest.2)

def Op.Writes (P : Message → Prop) : Op → Prop
  | .update _ message => P message
  | _ => True

instance {P : Message → Prop} [DecidablePred P] : DecidablePred (Op.Writes P)
  | .update _ message => inferInstanceAs (Decidable (P message))
  | .deleteMeasure .. | .deleteStream .. | .deleteIndexRuleBinding .. | .deleteIndexRule ..
  | .deleteGroup .. => isTrue trivial

/-- The stores that runs from a fresh server build, each call allowed by
`allowed` in the store it is made on. -/
inductive Reachable (c : Codec V) (allowed : Store V → Op → Prop) : Store V → Prop where
  | empty : Reachable c allowed Store.empty
  | step {kv : Store V} (handlers : List EventHandler) (op : Op) :
      Reachable c allowed kv → allowed kv op → Reachable c allowed (op.exec c ⟨kv, handlers⟩).1

/-- Everything a call can do to the store: nothing; put the marshalling of the
message it updates under that message's key; erase the key of an entity; or
remove the subtree of one group. -/
theorem Op.exec_cases (c : Codec V) (e : Registry V) (op : Op) :
    (op.exec c e).1 = e.kv ∨
    (∃ ctx message val, op = .update ctx message ∧ c.marshal message = .ok val ∧
      (op.exec c e).1 = e.kv.put message.envelope.key val) ∨
    (∃ kind group name, kind ≠ .group ∧ (op.exec c e).1 = e.kv.erase (entityKey group kind name)) ∨
    ∃ x, (op.exec c e).1 = e.kv.eraseRange (subtreePrefix x) (incrementLastByte (subtreePrefix x)) := by
  cases op with
  | update ctx message =>
      rcases update_cases c e ctx message.envelope with ⟨_, same⟩ | ⟨spec, val, given, marshalled, wrote⟩
      · exact .inl (by simp only [Op.exec, Outcome.effect, updateMessage_eq, same])
      · rw [envelope_spec, Option.some_inj] at given
        subst given
        exact .inr (.inl ⟨ctx, message, val, rfl, marshalled,
          by simp only [Op.exec, Outcome.effect, updateMessage_eq, wrote]⟩)
  | deleteMeasure ctx metadata =>
      exact (delete_kv c e ctx _).imp id fun erased => .inr (.inl ⟨.measure, _, _, nofun, erased⟩)
  | deleteStream ctx metadata =>
      exact (delete_kv c e ctx _).imp id fun erased => .inr (.inl ⟨.stream, _, _, nofun, erased⟩)
  | deleteIndexRuleBinding ctx metadata =>
      exact (delete_kv c e ctx _).imp id fun erased =>
        .inr (.inl ⟨.indexRuleBinding, _, _, nofun, erased⟩)
  | deleteIndexRule ctx metadata =>
      exact (delete_kv c e ctx _).imp id fun erased => .inr (.inl ⟨.indexRule, _, _, nofun, erased⟩)
  | deleteGroup ctx group =>
      exact (deleteGroup_kv c e ctx group).imp id fun erased => .inr (.inr erased)

/-- A key live after a call was live before with the same record, or holds the
marshalling of the message the call updated, under that message's key. -/
theorem Op.lookup_exec {c : Codec V} {e : Registry V} {op : Op} {key : List UInt8}
    {entry : KeyValue V} (found : (op.exec c e).1.lookup key = some entry) :
    e.kv.lookup key = some entry ∨ ∃ ctx message, op = .update ctx message ∧
      key = message.envelope.key ∧ c.marshal message = .ok entry.value := by
  rcases Op.exec_cases c e op with same | ⟨ctx, message, val, rfl, marshalled, wrote⟩ |
    ⟨kind, group, name, -, erased⟩ | ⟨x, erased⟩
  · exact .inl (same ▸ found)
  · rw [wrote] at found
    by_cases own : key = message.envelope.key
    · subst own
      rw [Store.lookup_put_self, Option.some_inj] at found
      exact .inr ⟨ctx, message, rfl, rfl, found ▸ marshalled⟩
    · exact .inl (Store.lookup_put_ne _ _ own ▸ found)
  · rw [erased, Store.lookup_erase] at found
    split at found
    · cases found
    · exact .inl found
  · rw [erased, Store.lookup_eraseRange] at found
    split at found
    · cases found
    · exact .inl found

/-- Every live key holds the marshalling of a message satisfying `P` whose own
key it is. -/
def Stored (c : Codec V) (P : Message → Prop) (kv : Store V) : Prop :=
  ∀ key entry, kv.lookup key = some entry →
    ∃ message, P message ∧ c.marshal message = .ok entry.value ∧ message.envelope.key = key

def Message.Plain (message : Message) : Prop :=
  (47 : UInt8) ∉ message.envelope.owner

instance : DecidablePred Message.Plain := fun message =>
  inferInstanceAs (Decidable ((47 : UInt8) ∉ message.envelope.owner))

section Stored

variable {c : Codec V} {P : Message → Prop}

theorem Stored.exec {e : Registry V} {op : Op} (stored : Stored c P e.kv) (writes : op.Writes P) :
    Stored c P (op.exec c e).1 := by
  intro key entry found
  rcases Op.lookup_exec found with before | ⟨ctx, message, rfl, rfl, marshalled⟩
  · exact stored key entry before
  · exact ⟨message, writes, marshalled, rfl⟩

theorem Reachable.stored {allowed : Store V → Op → Prop} (writes : ∀ kv op, allowed kv op → op.Writes P)
    {kv : Store V} (reachable : Reachable c allowed kv) : Stored c P kv := by
  induction reachable with
  | empty => intro key entry found; simp at found
  | step handlers op _ ok ih => exact Stored.exec ih (writes _ op ok)

theorem Reachable.run {allowed : Store V → Op → Prop} {kv : Store V} (reachable : Reachable c allowed kv)
    (handlers : List EventHandler) {ops : List Op} (always : ∀ op ∈ ops, ∀ kv', allowed kv' op) :
    Reachable c allowed (Op.run c ⟨kv, handlers⟩ ops).1 := by
  induction ops generalizing kv with
  | nil => exact reachable
  | cons op ops ih =>
      exact ih (.step handlers op reachable (always op (List.mem_cons_self _ _) kv))
        fun op' mem => always op' (List.mem_cons_of_mem _ mem)

/-- In a store of messages filed under groups without `/`, the key of
`(group, kind, name)`, for a `group` without `/`, holds a message of exactly
that kind, filed under that group, and named `name` unless it is a group. -/
theorem Stored.at_entityKey {kv : Store V} (stored : Stored c Message.Plain kv)
    {group name : List UInt8} {kind : Kind} {entry : KeyValue V} (plain : (47 : UInt8) ∉ group)
    (found : kv.lookup (entityKey group kind name) = some entry) :
    ∃ message, c.marshal message = .ok entry.value ∧ message.kind = kind ∧
      message.envelope.owner = group ∧ (kind ≠ .group → message.envelope.name = name) := by
  obtain ⟨message, filed, marshalled, key⟩ := stored _ entry found
  rw [TypeMeta.key_eq] at key
  obtain ⟨kinds, rfl, names⟩ := entityKey_inj filed plain key
  rw [envelope_kind] at kinds
  exact ⟨message, marshalled, kinds, rfl, fun entity => names (by rwa [envelope_kind, kinds])⟩

end Stored

end BanyanSchema
