import BanyanSchema.Session

namespace BanyanSchema

open Etcd

/-! # Callbacks follow commits

Over a sequential run, each call owes at most one callback, judged by what it
did to the store: etcd advances its revision exactly when a call changes a key,
so an update owes `OnAddOrUpdate` when it advanced the revision, a point delete
owes `OnDelete` when it removed a live key whose value decodes, and
`DeleteGroup` owes the group's `OnDelete` when its range delete removed a key.
The spec's dispatch rule (`dispatch`) sends each callback to the handler
registered at position `k` when that handler's mask admits the kind, in
registration order; `notifyUpdate` and `notifyDelete` follow it.
-/

variable {V : Type}

def deletion (kind : Kind) (metadata : Option Commonv1.Metadata) : Metadata :=
  { kind, group := Commonv1.getGroup metadata, name := Commonv1.getName metadata, spec := none }

/-- The callback owed for removing the key of `metadata`: `OnDelete` with the
removed value decoded as the kind's message, when the key was live, the store
changed and the value decodes. -/
def removal (c : Codec V) (before after : Store V) (metadata : Metadata) :
    Option (Callback × Metadata) :=
  match before.lookup metadata.key with
  | some prev =>
      if before.revision < after.revision then
        match c.unmarshal metadata.kind prev.value with
        | .ok message => some (.onDelete, { metadata.toTypeMeta with spec := some message })
        | .error _ => none
      else none
  | none => none

/-- The change a call made from `before` to `after`, as the callback it owes. -/
def Op.change (c : Codec V) (before after : Store V) : Op → Option (Callback × Metadata)
  | .update _ message =>
      if before.revision < after.revision then some (.onAddOrUpdate, message.envelope) else none
  | .deleteMeasure _ metadata => removal c before after (deletion .measure metadata)
  | .deleteStream _ metadata => removal c before after (deletion .stream metadata)
  | .deleteIndexRuleBinding _ metadata => removal c before after (deletion .indexRuleBinding metadata)
  | .deleteIndexRule _ metadata => removal c before after (deletion .indexRule metadata)
  | .deleteGroup ctx group =>
      match getGroup c ctx group before with
      | .ok g =>
          if before.revision < after.revision then
            some (.onDelete, { kind := .group, name := group, group := [], spec := some g })
          else none
      | .error _ => none

def Op.changes (c : Codec V) (e : Registry V) : List Op → List (Callback × Metadata)
  | [] => []
  | op :: ops =>
      (op.change c e.kv (op.exec c e).1).toList ++ Op.changes c ⟨(op.exec c e).1, e.handlers⟩ ops

/-- The spec's dispatch rule: the handler registered at each position `k`, in
order, receives the change when its mask admits the change's kind. -/
def dispatch (handlers : List EventHandler) (change : Callback × Metadata) : List Notification :=
  (List.range handlers.length).filterMap fun k =>
    handlers[k]?.bind fun h =>
      if h.interestOf change.2.kind then some ⟨k, h.handler, change.1, change.2⟩ else none

theorem notify_eq_dispatch (handlers : List EventHandler) (callback : Callback) (metadata : Metadata) :
    notify handlers callback metadata = dispatch handlers (callback, metadata) := by
  induction handlers using List.reverseRecOn with
  | nil => rfl
  | append_singleton init h ih =>
      have earlier : ∀ k ∈ List.range init.length, (init ++ [h])[k]? = init[k]? := fun k mem =>
        List.getElem?_append_left (List.mem_range.mp mem)
      rw [notify, List.enum_append, List.filter_append, List.map_append, ← notify, ih]
      unfold dispatch
      rw [List.length_append, List.length_singleton, List.range_succ, List.filterMap_append,
        List.filterMap_congr fun k mem => by rw [← earlier k mem]]
      cases interested : h.interestOf metadata.kind <;> simp [List.enumFrom, List.filter, interested]

/-- The handler registered at `k` receives one callback for a change when its
mask admits the change's kind, and none otherwise. -/
theorem dispatch_registration (handlers : List EventHandler) (change : Callback × Metadata) (k : Nat) :
    (dispatch handlers change).filter (·.registration = k) =
      match handlers[k]? with
      | some h => if h.interestOf change.2.kind then [⟨k, h.handler, change.1, change.2⟩] else []
      | none => [] := by
  have own : ∀ k', ((handlers[k']?.bind fun h => if h.interestOf change.2.kind then
      some (⟨k', h.handler, change.1, change.2⟩ : Notification) else none).filter
        fun n => decide (n.registration = k)) =
      if decide (k' = k) then handlers[k']?.bind fun h => if h.interestOf change.2.kind then
        some ⟨k', h.handler, change.1, change.2⟩ else none else none := fun k' => by
    cases handlers[k']? with
    | none => simp
    | some h =>
        cases interested : h.interestOf change.2.kind <;> by_cases same : k' = k <;>
          simp [Option.filter, same, interested]
  have once : (List.range handlers.length).count k = if k < handlers.length then 1 else 0 := by
    split
    · exact List.count_eq_one_of_mem (List.nodup_range _) (List.mem_range.mpr ‹_›)
    · exact List.count_eq_zero_of_not_mem (mt List.mem_range.mp ‹_›)
  rw [dispatch, List.filter_filterMap, List.filterMap_congr fun k' _ => own k', ← List.filterMap_filter,
    List.filter_eq, once]
  split
  · cases found : handlers[k]? with
    | none => simp [found]
    | some h =>
        simp only [List.replicate, List.filterMap_cons, List.filterMap_nil, found, Option.some_bind]
        cases h.interestOf change.2.kind <;> rfl
  · rw [List.getElem?_eq_none (by omega)]
    rfl

section

variable (c : Codec V) (e : Registry V) (ctx : Context)

theorem update_notifications (metadata : Metadata) :
    (update c e ctx metadata).notifications =
      if e.kv.revision < (update c e ctx metadata).kv.revision then
        notifyUpdate e.handlers metadata else [] := by
  rcases update_cases c e ctx metadata with ⟨_, same⟩ | ⟨_, _, _, _, wrote⟩
  · rw [same]
    simp
  · rw [wrote]
    dsimp only
    rw [Store.put_revision, if_pos (Int.lt_succ _)]

theorem deleteNotifications_of_entity (handlers : List EventHandler) {metadata : Metadata}
    (entity : metadata.kind ≠ .group) (prev : Σ _ : List UInt8, KeyValue V) :
    deleteNotifications c handlers metadata prev =
      .ok (match c.unmarshal metadata.kind prev.2.value with
        | .ok message => notifyDelete handlers { metadata.toTypeMeta with spec := some message }
        | .error _ => []) := by
  unfold deleteNotifications
  split
  · contradiction
  · split <;> simp only [*]

theorem delete_notifications {metadata : Metadata} (entity : metadata.kind ≠ .group) :
    (delete c e ctx metadata).notifications =
      (removal c e.kv (delete c e ctx metadata).kv metadata).toList.flatMap
        fun change => notify e.handlers change.1 change.2 := by
  rcases delete_cases c e ctx metadata with ⟨err, -, same⟩ | ⟨-, absent, same⟩ |
    ⟨-, prev, found, same⟩
  · rw [same, removal]
    split <;> simp
  · rw [same, removal, absent]
    rfl
  · have advanced : e.kv.revision < (e.kv.erase metadata.key).revision := by
      rw [Store.erase_revision, found, Option.isSome_some, if_pos rfl]
      exact Int.lt_succ _
    rw [deleteNotifications_of_entity c _ entity] at same
    rw [same]
    simp only [removal, found, if_pos advanced]
    split <;> simp [*, notifyDelete]

theorem deleteGroup_notifications (group : List UInt8) :
    (deleteGroup c e ctx group).notifications =
      match getGroup c ctx group e.kv with
      | .ok g =>
          if e.kv.revision < (deleteGroup c e ctx group).kv.revision then
            notifyDelete e.handlers { kind := .group, name := group, group := [], spec := some g }
          else []
      | .error _ => [] := by
  unfold deleteGroup
  cases read : getGroup c ctx group e.kv with
  | error err => rfl
  | ok g =>
      unfold deleteGroupCommit Etcd.deleteRange guarded
      cases ctx.err with
      | some err => simp
      | none =>
          dsimp only
          rw [Store.eraseRange_revision]
          split <;> simp_all [List.isEmpty_iff, List.length_pos, Int.lt_succ]

theorem Op.exec_notifications (op : Op) :
    (op.exec c e).2 = (op.change c e.kv (op.exec c e).1).toList.flatMap (dispatch e.handlers) := by
  have dispatched : (fun change : Callback × Metadata => notify e.handlers change.1 change.2) =
      dispatch e.handlers := funext fun _ => notify_eq_dispatch ..
  cases op with
  | update ctx message =>
      rw [show (Op.exec c e (.update ctx message)).2 = _ from
        (updateMessage_eq c e ctx message ▸ update_notifications c e ctx _ :)]
      simp only [Op.change, Op.exec, Outcome.effect, updateMessage_eq]
      split <;> simp [notifyUpdate, notify_eq_dispatch]
  | deleteMeasure ctx metadata | deleteStream ctx metadata | deleteIndexRuleBinding ctx metadata
  | deleteIndexRule ctx metadata =>
      rw [← dispatched]
      exact delete_notifications c e ctx (by simp [deletion])
  | deleteGroup ctx group =>
      rw [show (Op.exec c e (.deleteGroup ctx group)).2 = _ from deleteGroup_notifications c e ctx group]
      simp only [Op.change, Op.exec, Outcome.effect]
      split
      · split <;> simp [notifyDelete, notify_eq_dispatch]
      · rfl

end

/-- Over a sequential run the handler calls are the run's changes, each
dispatched by the spec's rule, in call order. The handler registered at `k`
receives, in call order, one callback per change whose kind its mask admits,
and nothing else. -/
theorem callbacks_match_commits (c : Codec V) (e : Registry V) (ops : List Op) :
    (Op.run c e ops).2 = (Op.changes c e ops).flatMap (dispatch e.handlers) ∧
    ∀ k h, e.handlers[k]? = some h →
      (Op.run c e ops).2.filter (·.registration = k) =
        (Op.changes c e ops).filterMap fun change =>
          if h.interestOf change.2.kind then some ⟨k, h.handler, change.1, change.2⟩ else none := by
  have run : (Op.run c e ops).2 = (Op.changes c e ops).flatMap (dispatch e.handlers) := by
    induction ops generalizing e with
    | nil => rfl
    | cons op ops ih =>
        simp only [Op.run, Op.changes, Op.exec_notifications, ih, List.flatMap_append]
  refine ⟨run, fun k h registered => ?_⟩
  rw [run]
  induction Op.changes c e ops with
  | nil => rfl
  | cons change rest ih =>
      rw [List.flatMap_cons, List.filter_append, dispatch_registration, registered, ih,
        List.filterMap_cons]
      dsimp only
      cases h.interestOf change.2.kind <;> rfl

end BanyanSchema
