import BanyanSchema.Keys

namespace BanyanSchema

/-! # Schema envelope

`schema.Metadata` (a `TypeMeta` and its `Spec`), the key it is stored under,
the codec of stored values, and the registry's event handlers. Except for the
handler record, these are declared outside src/ and are modelled from the
spec.
-/

/-- Modelled from the spec: `TypeMeta`, the kind, name and group that identify
an entity. -/
structure TypeMeta where
  kind : Kind
  name : List UInt8
  group : List UInt8
  deriving DecidableEq, Repr

/-- Modelled from the spec: `schema.Metadata`, a `TypeMeta` and the message it
describes; deletes leave `spec` unset. -/
structure Metadata extends TypeMeta where
  spec : Option Message
  deriving DecidableEq, Repr

/-- Modelled from the spec: `Metadata.Key()`, the key path of each kind. A
group is stored under its own name, which `UpdateGroup` puts in `Name`. Every
kind of the closed `Kind` has a key, so the error of an unsupported kind does
not arise. -/
def TypeMeta.key (typeMeta : TypeMeta) : List UInt8 :=
  match typeMeta.kind with
  | .group => formatGroupKey typeMeta.name
  | .stream => formatStreamKey (identity typeMeta.group typeMeta.name)
  | .measure => formatMeasureKey (identity typeMeta.group typeMeta.name)
  | .indexRuleBinding => formatIndexRuleBindingKey (identity typeMeta.group typeMeta.name)
  | .indexRule => formatIndexRuleKey (identity typeMeta.group typeMeta.name)

def TypeMeta.owner (typeMeta : TypeMeta) : List UInt8 :=
  match typeMeta.kind with
  | .group => typeMeta.name
  | _ => typeMeta.group

theorem TypeMeta.key_eq (typeMeta : TypeMeta) :
    typeMeta.key = entityKey typeMeta.owner typeMeta.kind typeMeta.name := by
  cases typeMeta with
  | mk kind name group => cases kind <;> rfl

/-- `proto.Marshal`, and `proto.Unmarshal` into a fresh message of a kind, over
the stored values `V`. The wire format is outside the repository; what the
registry relies on is that a marshalled message unmarshals back to itself,
as the kind it was. -/
structure Codec (V : Type) where
  marshal : Message → Except Error V
  unmarshal : Kind → V → Except Error Message
  unmarshal_marshal : ∀ {message value}, marshal message = .ok value →
    unmarshal message.kind value = .ok message
  kind_unmarshal : ∀ {kind value message}, unmarshal kind value = .ok message →
    message.kind = kind

/-- The codec that stores a message as itself; unmarshalling as another kind
fails. -/
def Codec.identity : Codec Message where
  marshal := .ok
  unmarshal kind message :=
    if message.kind = kind then .ok message else .error (.proto "proto: cannot parse invalid wire-format data")
  unmarshal_marshal := by
    intro message value marshalled
    cases marshalled
    simp
  kind_unmarshal := by
    intro kind value message decoded
    dsimp only at decoded
    split at decoded
    · cases decoded
      assumption
    · cases decoded

structure EventHandler where
  interestKeys : Nat
  handler : Nat
  deriving DecidableEq, Repr

def EventHandler.interestOf (eh : EventHandler) (kind : Kind) : Bool :=
  kindMask &&& kind.bit &&& eh.interestKeys != 0

inductive Callback where
  | onAddOrUpdate
  | onDelete
  deriving DecidableEq, Repr

structure Notification where
  registration : Nat
  handler : Nat
  callback : Callback
  metadata : Metadata
  deriving DecidableEq, Repr

/-- The dispatch loop of `notifyUpdate` and `notifyDelete`: every interested
handler, in registration order. -/
def notify (handlers : List EventHandler) (callback : Callback) (metadata : Metadata) :
    List Notification :=
  (handlers.enum.filter (fun entry => entry.2.interestOf metadata.kind)).map
    fun entry => ⟨entry.1, entry.2.handler, callback, metadata⟩

def notifyUpdate (handlers : List EventHandler) (metadata : Metadata) : List Notification :=
  notify handlers .onAddOrUpdate metadata

def notifyDelete (handlers : List EventHandler) (metadata : Metadata) : List Notification :=
  notify handlers .onDelete metadata

end BanyanSchema
