import BanyanSchema.Etcd
import BanyanSchema.Schema

namespace BanyanSchema

/-! # The etcd schema registry

`etcdSchemaRegistry` of etcd.go and measure.go. Reads return their result;
mutations return an `Outcome`: the result, the store after the call and the
handler calls made. `update` and `DeleteGroup` each make two substrate calls,
a read and a write, and are written as the two halves, so that a run of
several clients can interleave them.
-/

open Etcd

variable {V : Type}

/-- `etcdSchemaRegistry`: the client of the embedded server and the registered
handlers. -/
structure Registry (V : Type) where
  kv : Store V
  handlers : List EventHandler

def Registry.registerHandler (e : Registry V) (kind handler : Nat) : Registry V :=
  { e with handlers := e.handlers ++ [⟨kind, handler⟩] }

structure Outcome (V α : Type) where
  result : Except Error α
  kv : Store V
  notifications : List Notification

/-- Modelled from the spec: `ListOpt`, of which the registry reads `Group`. -/
structure ListOpt where
  group : List UInt8
  deriving DecidableEq, Repr

/-- `proto.Unmarshal` of a stored value, then "Assign readonly fields" from the
key's revisions. -/
def decodeEntry (c : Codec V) (kind : Kind) (entry : Σ _ : List UInt8, KeyValue V) :
    Except Error Message :=
  match c.unmarshal kind entry.2.value with
  | .error err => .error err
  | .ok message => message.assignRevisions entry.2.createRevision entry.2.modRevision

/-- `get`: the response's `Count` decides between not found, one entity and too
many. -/
def get (c : Codec V) (ctx : Context) (key : List UInt8) (kind : Kind) (kv : Store V) :
    Except Error Message :=
  match Etcd.get ctx key kv with
  | .error err => .error err
  | .ok resp =>
      match resp.kvs with
      | [] => .error .entityNotFound
      | [entry] => decodeEntry c kind entry
      | _ :: _ :: _ => .error .unexpectedNumberOfEntities

def getGroup (c : Codec V) (ctx : Context) (group : List UInt8) (kv : Store V) :
    Except Error Message :=
  get c ctx (formatGroupKey group) .group kv

def getMeasure (c : Codec V) (ctx : Context) (metadata : Option Commonv1.Metadata)
    (kv : Store V) : Except Error Message :=
  get c ctx (formatMeasureKey metadata) .measure kv

def getStream (c : Codec V) (ctx : Context) (metadata : Option Commonv1.Metadata)
    (kv : Store V) : Except Error Message :=
  get c ctx (formatStreamKey metadata) .stream kv

def getIndexRuleBinding (c : Codec V) (ctx : Context) (metadata : Option Commonv1.Metadata)
    (kv : Store V) : Except Error Message :=
  get c ctx (formatIndexRuleBindingKey metadata) .indexRuleBinding kv

def getIndexRule (c : Codec V) (ctx : Context) (metadata : Option Commonv1.Metadata)
    (kv : Store V) : Except Error Message :=
  get c ctx (formatIndexRuleKey metadata) .indexRule kv

/-- The loop of `listWithPrefix`: decode every entry in order, stopping at the
first error. -/
def decodeEntries (c : Codec V) (kind : Kind) :
    List (Σ _ : List UInt8, KeyValue V) → Except Error (List Message)
  | [] => .ok []
  | entry :: rest =>
      match decodeEntry c kind entry with
      | .error err => .error err
      | .ok message =>
          match decodeEntries c kind rest with
          | .error err => .error err
          | .ok messages => .ok (message :: messages)

def listWithPrefix (c : Codec V) (ctx : Context) (keyPrefix : List UInt8) (kind : Kind)
    (kv : Store V) : Except Error (List Message) :=
  match Etcd.getRange ctx keyPrefix (incrementLastByte keyPrefix) kv with
  | .error err => .error err
  | .ok resp => decodeEntries c kind resp.kvs

/-- `ListStream`, `ListMeasure`, `ListIndexRule` and `ListIndexRuleBinding`:
each refuses an empty group with its own message, then scans its prefix. -/
def listEntities (c : Codec V) (ctx : Context) (operation : String) (entityPrefix : List UInt8)
    (kind : Kind) (opt : ListOpt) (kv : Store V) : Except Error (List Message) :=
  if opt.group = [] then .error (.wrap .groupAbsent (goString operation))
  else listWithPrefix c ctx (listPrefixesForEntity opt.group entityPrefix) kind kv

def listStream (c : Codec V) (ctx : Context) (opt : ListOpt) (kv : Store V) :
    Except Error (List Message) :=
  listEntities c ctx "list stream" streamKeyPrefix .stream opt kv

def listMeasure (c : Codec V) (ctx : Context) (opt : ListOpt) (kv : Store V) :
    Except Error (List Message) :=
  listEntities c ctx "list measure" measureKeyPrefix .measure opt kv

def listIndexRuleBinding (c : Codec V) (ctx : Context) (opt : ListOpt) (kv : Store V) :
    Except Error (List Message) :=
  listEntities c ctx "list index rule binding" indexRuleBindingKeyPrefix .indexRuleBinding opt kv

def listIndexRule (c : Codec V) (ctx : Context) (opt : ListOpt) (kv : Store V) :
    Except Error (List Message) :=
  listEntities c ctx "list index rule" indexRuleKeyPrefix .indexRule opt kv

/-- The loop of `ListGroup`: keep the keys ending in `/__meta_group__` and
unmarshal them as groups, stopping at the first error. Unlike
`listWithPrefix`, it assigns no revisions. -/
def decodeGroups (c : Codec V) : List (Σ _ : List UInt8, KeyValue V) → Except Error (List Message)
  | [] => .ok []
  | entry :: rest =>
      if groupMetadataKey.isSuffixOf entry.1 then
        match c.unmarshal .group entry.2.value with
        | .error err => .error err
        | .ok message =>
            match decodeGroups c rest with
            | .error err => .error err
            | .ok messages => .ok (message :: messages)
      else decodeGroups c rest

def listGroup (c : Codec V) (ctx : Context) (kv : Store V) : Except Error (List Message) :=
  match Etcd.getRange ctx groupsKeyPrefix (incrementLastByte groupsKeyPrefix) kv with
  | .error err => .error err
  | .ok messages => decodeGroups c messages.kvs

/-- Where `update` stands after its read: returned, or about to put a first
value, or about to commit a compare-and-swap against the observed revision. -/
inductive UpdatePlan (V : Type) where
  | returned (result : Except Error Unit)
  | put (key : List UInt8) (value : V)
  | txn (key : List UInt8) (modRevision : Int) (value : V)

/-- `update` up to its write: the key, the read, the marshalled value, and for
a live key its decoded value, compared with `Equal`. Modelled from the spec:
`Metadata.Unmarshal` decodes as the metadata's kind and `Metadata.Equal` is
equality of messages; the assertion `Spec.(proto.Message)` panics on a nil
spec. -/
def updateRead (c : Codec V) (ctx : Context) (metadata : Metadata) (kv : Store V) :
    UpdatePlan V :=
  match Etcd.get ctx metadata.key kv with
  | .error err => .returned (.error err)
  | .ok getResp =>
      if getResp.count > 1 then .returned (.error .unexpectedNumberOfEntities)
      else
        match metadata.spec with
        | none => .returned (.error .nilPointerDereference)
        | some spec =>
            match c.marshal spec with
            | .error err => .returned (.error err)
            | .ok val =>
                match getResp.kvs with
                | [] => .put metadata.key val
                | existing :: _ =>
                    match c.unmarshal metadata.kind existing.2.value with
                    | .error err => .returned (.error err)
                    | .ok existingVal =>
                        if spec = existingVal then .returned (.ok ())
                        else .txn metadata.key existing.2.modRevision val

/-- `update` from its write on: the put of a first insert, or the transaction,
which is issued with `context.Background()`; a successful write notifies. -/
def updateCommit (handlers : List EventHandler) (ctx : Context) (metadata : Metadata) :
    UpdatePlan V → Store V → Outcome V Unit
  | .returned result, kv => ⟨result, kv, []⟩
  | .put key val, kv =>
      match Etcd.put ctx key val kv with
      | .error err => ⟨.error err, kv, []⟩
      | .ok after => ⟨.ok (), after, notifyUpdate handlers metadata⟩
  | .txn key modRevision val, kv =>
      match Etcd.txn Context.background key modRevision val kv with
      | .error err => ⟨.error err, kv, []⟩
      | .ok (succeeded, after) =>
          if succeeded then ⟨.ok (), after, notifyUpdate handlers metadata⟩
          else ⟨.error .concurrentModification, after, []⟩

def update (c : Codec V) (e : Registry V) (ctx : Context) (metadata : Metadata) :
    Outcome V Unit :=
  updateCommit e.handlers ctx metadata (updateRead c ctx metadata e.kv) e.kv

def updateGroup (c : Codec V) (e : Registry V) (ctx : Context) (group : Commonv1.Group) :
    Outcome V Unit :=
  update c e ctx
    { kind := .group, name := Commonv1.getName group.metadata, group := [], spec := some (.group group) }

def updateMeasure (c : Codec V) (e : Registry V) (ctx : Context) (measure : Databasev1.Measure) :
    Outcome V Unit :=
  update c e ctx
    { kind := .measure, group := Commonv1.getGroup measure.metadata,
      name := Commonv1.getName measure.metadata, spec := some (.measure measure) }

def updateStream (c : Codec V) (e : Registry V) (ctx : Context) (stream : Databasev1.Stream) :
    Outcome V Unit :=
  update c e ctx
    { kind := .stream, group := Commonv1.getGroup stream.metadata,
      name := Commonv1.getName stream.metadata, spec := some (.stream stream) }

def updateIndexRuleBinding (c : Codec V) (e : Registry V) (ctx : Context)
    (indexRuleBinding : Databasev1.IndexRuleBinding) : Outcome V Unit :=
  update c e ctx
    { kind := .indexRuleBinding, name := Commonv1.getName indexRuleBinding.metadata,
      group := Commonv1.getGroup indexRuleBinding.metadata,
      spec := some (.indexRuleBinding indexRuleBinding) }

def updateIndexRule (c : Codec V) (e : Registry V) (ctx : Context)
    (indexRule : Databasev1.IndexRule) : Outcome V Unit :=
  update c e ctx
    { kind := .indexRule, name := Commonv1.getName indexRule.metadata,
      group := Commonv1.getGroup indexRule.metadata, spec := some (.indexRule indexRule) }

/-- The notification of a removed key: its previous value unmarshalled as the
kind's message (best effort: a failed unmarshal notifies no one). `delete` has
no message for a group and unmarshals into nil, which panics. -/
def deleteNotifications (c : Codec V) (handlers : List EventHandler) (metadata : Metadata)
    (prev : Σ _ : List UInt8, KeyValue V) : Except Error (List Notification) :=
  match metadata.kind with
  | .group => .error .nilPointerDereference
  | kind =>
      match c.unmarshal kind prev.2.value with
      | .error _ => .ok []
      | .ok message => .ok (notifyDelete handlers { metadata.toTypeMeta with spec := some message })

def delete (c : Codec V) (e : Registry V) (ctx : Context) (metadata : Metadata) :
    Outcome V Bool :=
  match Etcd.delete ctx metadata.key e.kv with
  | .error err => ⟨.error err, e.kv, []⟩
  | .ok (resp, after) =>
      match resp.deleted, resp.prevKvs with
      | 1, prev :: _ =>
          match deleteNotifications c e.handlers metadata prev with
          | .error err => ⟨.error err, after, []⟩
          | .ok notifications => ⟨.ok true, after, notifications⟩
      | _, _ => ⟨.ok false, after, []⟩

def deleteMeasure (c : Codec V) (e : Registry V) (ctx : Context)
    (metadata : Option Commonv1.Metadata) : Outcome V Bool :=
  delete c e ctx
    { kind := .measure, group := Commonv1.getGroup metadata, name := Commonv1.getName metadata,
      spec := none }

def deleteStream (c : Codec V) (e : Registry V) (ctx : Context)
    (metadata : Option Commonv1.Metadata) : Outcome V Bool :=
  delete c e ctx
    { kind := .stream, group := Commonv1.getGroup metadata, name := Commonv1.getName metadata,
      spec := none }

def deleteIndexRuleBinding (c : Codec V) (e : Registry V) (ctx : Context)
    (metadata : Option Commonv1.Metadata) : Outcome V Bool :=
  delete c e ctx
    { kind := .indexRuleBinding, name := Commonv1.getName metadata,
      group := Commonv1.getGroup metadata, spec := none }

def deleteIndexRule (c : Codec V) (e : Registry V) (ctx : Context)
    (metadata : Option Commonv1.Metadata) : Outcome V Bool :=
  delete c e ctx
    { kind := .indexRule, name := Commonv1.getName metadata, group := Commonv1.getGroup metadata,
      spec := none }

/-- The subtree `DeleteGroup` removes: `/groups/` and the stored group's own
name, then `/`. -/
def groupKeyPrefix (g : Message) : List UInt8 :=
  groupsKeyPrefix ++ Commonv1.getName g.getMetadata ++ goString "/"

/-- `DeleteGroup` from its range delete on, given the group its read returned. -/
def deleteGroupCommit (handlers : List EventHandler) (ctx : Context) (group : List UInt8)
    (g : Message) (kv : Store V) : Outcome V Bool :=
  match Etcd.deleteRange ctx (groupKeyPrefix g) (incrementLastByte (groupKeyPrefix g)) kv with
  | .error err => ⟨.error err, kv, []⟩
  | .ok (resp, after) =>
      ⟨.ok true, after,
        if resp.deleted > 0 then
          notifyDelete handlers { kind := .group, name := group, group := [], spec := some g }
        else []⟩

def deleteGroup (c : Codec V) (e : Registry V) (ctx : Context) (group : List UInt8) :
    Outcome V Bool :=
  match getGroup c ctx group e.kv with
  | .error err => ⟨.error (.wrap err group), e.kv, []⟩
  | .ok g => deleteGroupCommit e.handlers ctx group g e.kv

/-- The `schema.Metadata` that `UpdateGroup`, `UpdateStream`, … build for a
message. -/
def Message.envelope : Message → Metadata
  | .group value =>
      { kind := .group, name := Commonv1.getName value.metadata, group := [], spec := some (.group value) }
  | .stream value =>
      { kind := .stream, group := Commonv1.getGroup value.metadata,
        name := Commonv1.getName value.metadata, spec := some (.stream value) }
  | .measure value =>
      { kind := .measure, group := Commonv1.getGroup value.metadata,
        name := Commonv1.getName value.metadata, spec := some (.measure value) }
  | .indexRuleBinding value =>
      { kind := .indexRuleBinding, name := Commonv1.getName value.metadata,
        group := Commonv1.getGroup value.metadata, spec := some (.indexRuleBinding value) }
  | .indexRule value =>
      { kind := .indexRule, name := Commonv1.getName value.metadata,
        group := Commonv1.getGroup value.metadata, spec := some (.indexRule value) }

def updateMessage (c : Codec V) (e : Registry V) (ctx : Context) : Message → Outcome V Unit
  | .group value => updateGroup c e ctx value
  | .stream value => updateStream c e ctx value
  | .measure value => updateMeasure c e ctx value
  | .indexRuleBinding value => updateIndexRuleBinding c e ctx value
  | .indexRule value => updateIndexRule c e ctx value

/-- The `Get…` of the message's kind, at the message's own identity. -/
def getMessage (c : Codec V) (ctx : Context) (message : Message) (kv : Store V) :
    Except Error Message :=
  match message with
  | .group value => getGroup c ctx (Commonv1.getName value.metadata) kv
  | .stream value => getStream c ctx value.metadata kv
  | .measure value => getMeasure c ctx value.metadata kv
  | .indexRuleBinding value => getIndexRuleBinding c ctx value.metadata kv
  | .indexRule value => getIndexRule c ctx value.metadata kv

/-- `GetGroup`, `GetStream`, … of the kind at `{group, name}`; a group is read
by its name alone. -/
def getEntity (c : Codec V) (ctx : Context) (kind : Kind) (group name : List UInt8) (kv : Store V) :
    Except Error Message :=
  match kind with
  | .group => getGroup c ctx group kv
  | .stream => getStream c ctx (identity group name) kv
  | .measure => getMeasure c ctx (identity group name) kv
  | .indexRuleBinding => getIndexRuleBinding c ctx (identity group name) kv
  | .indexRule => getIndexRule c ctx (identity group name) kv

/-- `ListStream`, `ListMeasure`, … of the kind in `group`; for a group,
`ListGroup`, which lists every group. -/
def listEntity (c : Codec V) (ctx : Context) (kind : Kind) (group : List UInt8) (kv : Store V) :
    Except Error (List Message) :=
  match kind with
  | .group => listGroup c ctx kv
  | .stream => listStream c ctx ⟨group⟩ kv
  | .measure => listMeasure c ctx ⟨group⟩ kv
  | .indexRuleBinding => listIndexRuleBinding c ctx ⟨group⟩ kv
  | .indexRule => listIndexRule c ctx ⟨group⟩ kv

theorem getEntity_eq (c : Codec V) (ctx : Context) (kind : Kind) (group name : List UInt8)
    (kv : Store V) : getEntity c ctx kind group name kv = get c ctx (entityKey group kind name) kind kv := by
  cases kind <;> rfl

theorem listEntity_scan (c : Codec V) (ctx : Context) {kind : Kind} (entity : kind ≠ .group)
    {group : List UInt8} (nonempty : group ≠ []) (kv : Store V) :
    listEntity c ctx kind group kv =
      listWithPrefix c ctx (listPrefixesForEntity group kind.entityPrefix) kind kv := by
  cases kind
  case group => exact absurd rfl entity
  all_goals simp [listEntity, listStream, listMeasure, listIndexRuleBinding, listIndexRule,
    listEntities, nonempty, Kind.entityPrefix]

theorem updateMessage_eq (c : Codec V) (e : Registry V) (ctx : Context) (message : Message) :
    updateMessage c e ctx message = update c e ctx message.envelope := by
  cases message <;> rfl

theorem getMessage_eq (c : Codec V) (ctx : Context) (message : Message) (kv : Store V) :
    getMessage c ctx message kv = get c ctx message.envelope.key message.kind kv := by
  cases message <;> rfl

@[simp] theorem envelope_kind (message : Message) : message.envelope.kind = message.kind := by
  cases message <;> rfl

@[simp] theorem envelope_spec (message : Message) : message.envelope.spec = some message := by
  cases message <;> rfl

theorem envelope_owner_of_ne_group {message : Message} (entity : message.kind ≠ .group) :
    message.envelope.owner = Commonv1.getGroup message.getMetadata := by
  cases message
  case group => exact absurd rfl entity
  all_goals rfl

theorem envelope_owner_of_group {message : Message} (isGroup : message.kind = .group) :
    message.envelope.owner = Commonv1.getName message.getMetadata := by
  cases message <;> first | rfl | cases isGroup

theorem getMetadata_of_owner {message : Message} (owned : message.envelope.owner ≠ []) :
    ∃ metadata, message.getMetadata = some metadata := by
  cases message <;>
  · rename_i value
    cases given : value.metadata with
    | none =>
        simp [Message.envelope, TypeMeta.owner, Commonv1.getName, Commonv1.getGroup, given] at owned
    | some metadata => exact ⟨metadata, by simp [Message.getMetadata, given]⟩

theorem get_of_lookup (c : Codec V) {ctx : Context} (live : ctx.err = none) {key : List UInt8}
    (kind : Kind) {kv : Store V} {entry : KeyValue V} (found : kv.lookup key = some entry) :
    get c ctx key kind kv = decodeEntry c kind ⟨key, entry⟩ := by
  simp [get, Etcd.get, guarded, live, found]

theorem get_of_absent (c : Codec V) {ctx : Context} (live : ctx.err = none) {key : List UInt8}
    (kind : Kind) {kv : Store V} (absent : kv.lookup key = none) :
    get c ctx key kind kv = .error .entityNotFound := by
  simp [get, Etcd.get, guarded, live, absent]

theorem get_ok {c : Codec V} {ctx : Context} {key : List UInt8} {kind : Kind} {kv : Store V}
    {message : Message} (read : get c ctx key kind kv = .ok message) :
    ∃ entry, kv.lookup key = some entry ∧ decodeEntry c kind ⟨key, entry⟩ = .ok message := by
  cases live : ctx.err with
  | some err => simp [get, Etcd.get, guarded, live] at read
  | none =>
      cases found : kv.lookup key with
      | none => simp [get, Etcd.get, guarded, live, found] at read
      | some entry => exact ⟨entry, rfl, by simpa [get, Etcd.get, guarded, live, found] using read⟩

theorem get_congr (c : Codec V) (ctx : Context) {key : List UInt8} (kind : Kind) {kv kv' : Store V}
    (same : kv.lookup key = kv'.lookup key) : get c ctx key kind kv = get c ctx key kind kv' := by
  simp only [get, Etcd.get, same]

theorem decodeEntry_of_unmarshal {c : Codec V} {kind : Kind} {key : List UInt8} {entry : KeyValue V}
    {message : Message} (decoded : c.unmarshal kind entry.value = .ok message) :
    decodeEntry c kind ⟨key, entry⟩ = message.assignRevisions entry.createRevision entry.modRevision := by
  simp [decodeEntry, decoded]

theorem assignRevisions_of_metadata {message : Message} {metadata : Commonv1.Metadata}
    (hasMetadata : message.getMetadata = some metadata) (createRevision modRevision : Int) :
    message.assignRevisions createRevision modRevision =
      .ok (message.setMetadata (some { metadata with createRevision, modRevision })) := by
  simp [Message.assignRevisions, hasMetadata]

/-- Everything `update`'s read can decide: fail, return nil over an equal
stored value, insert over an absent key, or compare-and-swap over a live key
whose decoded value differs. -/
theorem updateRead_cases (c : Codec V) (ctx : Context) (metadata : Metadata) (kv : Store V) :
    (∃ err, updateRead c ctx metadata kv = .returned (.error err)) ∨
    (ctx.err = none ∧ ∃ e spec, kv.lookup metadata.key = some e ∧ metadata.spec = some spec ∧
      c.unmarshal metadata.kind e.value = .ok spec ∧
      updateRead c ctx metadata kv = .returned (.ok ())) ∨
    (ctx.err = none ∧ kv.lookup metadata.key = none ∧ ∃ spec val, metadata.spec = some spec ∧
      c.marshal spec = .ok val ∧ updateRead c ctx metadata kv = .put metadata.key val) ∨
    (ctx.err = none ∧ ∃ e spec val existing, kv.lookup metadata.key = some e ∧
      metadata.spec = some spec ∧ c.marshal spec = .ok val ∧
      c.unmarshal metadata.kind e.value = .ok existing ∧ spec ≠ existing ∧
      updateRead c ctx metadata kv = .txn metadata.key e.modRevision val) := by
  unfold updateRead Etcd.get guarded
  cases hctx : ctx.err
  case some err => exact .inl ⟨_, rfl⟩
  cases found : kv.lookup metadata.key with
  | none =>
      cases given : metadata.spec with
      | none => exact .inl ⟨_, rfl⟩
      | some spec =>
          cases marshalled : c.marshal spec with
          | error err => exact .inl ⟨err, by simp [marshalled, RangeResponse.count]⟩
          | ok val =>
              exact .inr (.inr (.inl ⟨rfl, rfl, spec, val, rfl, marshalled,
                by simp [marshalled, RangeResponse.count]⟩))
  | some e =>
      cases given : metadata.spec with
      | none => exact .inl ⟨_, rfl⟩
      | some spec =>
          cases marshalled : c.marshal spec with
          | error err => exact .inl ⟨err, by simp [marshalled, RangeResponse.count]⟩
          | ok val =>
              cases decoded : c.unmarshal metadata.kind e.value with
              | error err => exact .inl ⟨err, by simp [marshalled, decoded, RangeResponse.count]⟩
              | ok existing =>
                  by_cases same : spec = existing
                  · subst same
                    exact .inr (.inl ⟨rfl, e, spec, rfl, rfl, decoded,
                      by simp [marshalled, decoded, RangeResponse.count]⟩)
                  · exact .inr (.inr (.inr ⟨rfl, e, spec, val, existing, rfl, rfl, marshalled,
                      decoded, same, by simp [marshalled, decoded, same, RangeResponse.count]⟩))

theorem updateRead_txn {c : Codec V} {ctx : Context} {metadata : Metadata} {kv : Store V}
    {key : List UInt8} {r : Int} {val : V} (read : updateRead c ctx metadata kv = .txn key r val) :
    key = metadata.key ∧ ∃ e, kv.lookup key = some e ∧ e.modRevision = r := by
  rcases updateRead_cases c ctx metadata kv with ⟨_, returned⟩ | ⟨_, _, _, _, _, _, returned⟩ |
    ⟨_, _, _, _, _, _, put⟩ | ⟨_, e, _, _, _, found, _, _, _, _, txn⟩
  · rw [returned] at read; cases read
  · rw [returned] at read; cases read
  · rw [put] at read; cases read
  · rw [txn] at read
    cases read
    exact ⟨rfl, e, found, rfl⟩

/-- The commit of a compare-and-swap: it writes exactly when the key's mod
revision is still the one read. -/
theorem updateCommit_txn (handlers : List EventHandler) (ctx : Context) (metadata : Metadata)
    (key : List UInt8) (r : Int) (val : V) (kv : Store V) :
    updateCommit handlers ctx metadata (.txn key r val) kv =
      if kv.modRevisionOf key = r then ⟨.ok (), kv.put key val, notifyUpdate handlers metadata⟩
      else ⟨.error .concurrentModification, kv, []⟩ := by
  simp only [updateCommit, Etcd.txn, guarded, Context.background]
  split <;> rfl

theorem updateCommit_put (handlers : List EventHandler) {ctx : Context} (live : ctx.err = none)
    (metadata : Metadata) (key : List UInt8) (val : V) (kv : Store V) :
    updateCommit handlers ctx metadata (.put key val) kv =
      ⟨.ok (), kv.put key val, notifyUpdate handlers metadata⟩ := by
  simp [updateCommit, Etcd.put, guarded, live]

/-- A call of `update` that returns nil either found its spec already stored
and left the store alone, or wrote the marshalled spec with a put. -/
theorem update_ok_cases {c : Codec V} {e : Registry V} {ctx : Context} {metadata : Metadata}
    (returned : (update c e ctx metadata).result = .ok ()) :
    ∃ spec, metadata.spec = some spec ∧
      ((∃ entry, e.kv.lookup metadata.key = some entry ∧
          c.unmarshal metadata.kind entry.value = .ok spec ∧ (update c e ctx metadata).kv = e.kv) ∨
        ∃ val, c.marshal spec = .ok val ∧ (update c e ctx metadata).kv = e.kv.put metadata.key val) := by
  unfold update at returned ⊢
  rcases updateRead_cases c ctx metadata e.kv with ⟨_, read⟩ | ⟨-, entry, spec, found, given, decoded, read⟩ |
    ⟨live, -, spec, val, given, marshalled, read⟩ | ⟨-, entry, spec, val, -, -, given, marshalled, -, -, read⟩
  · rw [read] at returned
    cases returned
  · rw [read]
    exact ⟨spec, given, .inl ⟨entry, found, decoded, rfl⟩⟩
  · rw [read, updateCommit_put _ live]
    exact ⟨spec, given, .inr ⟨val, marshalled, rfl⟩⟩
  · rw [read, updateCommit_txn] at returned ⊢
    by_cases swapped : e.kv.modRevisionOf metadata.key = entry.modRevision
    · rw [if_pos swapped]
      exact ⟨spec, given, .inr ⟨val, marshalled, rfl⟩⟩
    · rw [if_neg swapped] at returned
      cases returned

/-- Everything a call of `update` can do to the store and the handlers: nothing,
whatever it returns, or put the marshalled spec, return nil and notify. -/
theorem update_cases (c : Codec V) (e : Registry V) (ctx : Context) (metadata : Metadata) :
    (∃ result, update c e ctx metadata = ⟨result, e.kv, []⟩) ∨
    ∃ spec val, metadata.spec = some spec ∧ c.marshal spec = .ok val ∧
      update c e ctx metadata = ⟨.ok (), e.kv.put metadata.key val, notifyUpdate e.handlers metadata⟩ := by
  unfold update
  rcases updateRead_cases c ctx metadata e.kv with ⟨_, read⟩ | ⟨-, -, -, -, -, -, read⟩ |
    ⟨live, -, spec, val, given, marshalled, read⟩ | ⟨-, entry, spec, val, -, -, given, marshalled, -, -, read⟩
  · exact .inl ⟨_, by rw [read]; rfl⟩
  · exact .inl ⟨_, by rw [read]; rfl⟩
  · exact .inr ⟨spec, val, given, marshalled, by rw [read, updateCommit_put _ live]⟩
  · rw [read, updateCommit_txn]
    split
    · exact .inr ⟨spec, val, given, marshalled, rfl⟩
    · exact .inl ⟨_, rfl⟩

theorem updateCommit_transition (handlers : List EventHandler) (ctx : Context)
    (metadata : Metadata) (plan : UpdatePlan V) (kv : Store V) :
    Transition kv (updateCommit handlers ctx metadata plan kv).kv := by
  cases plan with
  | returned => exact .stay kv
  | put key val =>
      simp only [updateCommit, Etcd.put, guarded]
      cases ctx.err
      · exact .put kv key val
      · exact .stay kv
  | txn key r val =>
      rw [updateCommit_txn]
      split
      · exact .put kv key val
      · exact .stay kv

theorem delete_transition (c : Codec V) (e : Registry V) (ctx : Context) (metadata : Metadata) :
    Transition e.kv (delete c e ctx metadata).kv := by
  unfold delete Etcd.delete guarded
  cases ctx.err
  · dsimp only
    split
    · split <;> exact .erase _ _
    · exact .erase _ _
  · exact .stay _

/-- Everything `delete` can do: fail with its context's error before the call,
or erase its key, returning false over an absent key and true, with the
notifications of the previous value, over a live one. -/
theorem delete_cases (c : Codec V) (e : Registry V) (ctx : Context) (metadata : Metadata) :
    (∃ err, ctx.err = some err ∧ delete c e ctx metadata = ⟨.error err, e.kv, []⟩) ∨
    (ctx.err = none ∧ e.kv.lookup metadata.key = none ∧
      delete c e ctx metadata = ⟨.ok false, e.kv.erase metadata.key, []⟩) ∨
    (ctx.err = none ∧ ∃ prev, e.kv.lookup metadata.key = some prev ∧
      delete c e ctx metadata =
        match deleteNotifications c e.handlers metadata ⟨metadata.key, prev⟩ with
        | .error err => ⟨.error err, e.kv.erase metadata.key, []⟩
        | .ok notifications => ⟨.ok true, e.kv.erase metadata.key, notifications⟩) := by
  cases live : ctx.err with
  | some err => exact .inl ⟨err, rfl, by simp [delete, Etcd.delete, guarded, live]⟩
  | none =>
      cases found : e.kv.lookup metadata.key with
      | none => exact .inr (.inl ⟨rfl, rfl, by simp [delete, Etcd.delete, guarded, live, found]⟩)
      | some prev =>
          exact .inr (.inr ⟨rfl, prev, rfl, by simp [delete, Etcd.delete, guarded, live, found]⟩)

theorem delete_kv (c : Codec V) (e : Registry V) (ctx : Context) (metadata : Metadata) :
    (delete c e ctx metadata).kv = e.kv ∨ (delete c e ctx metadata).kv = e.kv.erase metadata.key := by
  unfold delete Etcd.delete guarded
  cases ctx.err
  · dsimp only
    split
    · split <;> exact .inr rfl
    · exact .inr rfl
  · exact .inl rfl

theorem groupKeyPrefix_eq (g : Message) :
    groupKeyPrefix g = subtreePrefix (Commonv1.getName g.getMetadata) := rfl

theorem deleteGroup_kv (c : Codec V) (e : Registry V) (ctx : Context) (group : List UInt8) :
    (deleteGroup c e ctx group).kv = e.kv ∨ ∃ x, (deleteGroup c e ctx group).kv =
      e.kv.eraseRange (subtreePrefix x) (incrementLastByte (subtreePrefix x)) := by
  unfold deleteGroup deleteGroupCommit Etcd.deleteRange guarded
  split
  · exact .inl rfl
  · cases ctx.err
    · exact .inr ⟨_, by rw [← groupKeyPrefix_eq]⟩
    · exact .inl rfl

theorem deleteGroup_ok {c : Codec V} {e : Registry V} {ctx : Context} {group : List UInt8}
    {deleted : Bool} (returned : (deleteGroup c e ctx group).result = .ok deleted) :
    ∃ g, getGroup c ctx group e.kv = .ok g ∧ (deleteGroup c e ctx group).kv =
      e.kv.eraseRange (groupKeyPrefix g) (incrementLastByte (groupKeyPrefix g)) := by
  unfold deleteGroup at returned ⊢
  cases read : getGroup c ctx group e.kv with
  | error err =>
      rw [read] at returned
      cases returned
  | ok g =>
      rw [read] at returned
      refine ⟨g, rfl, ?_⟩
      unfold deleteGroupCommit Etcd.deleteRange guarded at returned ⊢
      cases live : ctx.err <;> simp [live] at returned ⊢

theorem deleteGroupCommit_transition (handlers : List EventHandler) (ctx : Context)
    (group : List UInt8) (g : Message) (kv : Store V) :
    Transition kv (deleteGroupCommit handlers ctx group g kv).kv := by
  unfold deleteGroupCommit Etcd.deleteRange guarded
  cases ctx.err
  · exact .eraseRange _ _ _
  · exact .stay _

end BanyanSchema
