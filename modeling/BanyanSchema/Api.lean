import Mathlib.Data.List.Basic

namespace BanyanSchema

/-! # Wire shapes and errors

The protobuf messages the registry stores (`commonv1.Group` and its parts, as
`api/proto/banyandb/common/v1` declares them, and the four `databasev1` schema
messages), the envelope `Message` that stands for `proto.Message`, and the
registry's errors. The four `databasev1` schema messages are declared outside
src/: each keeps its `metadata`, and `rest` holds the wire bytes of its other
fields (tag families, fields, rules, subject), which no function under src/
reads and which `Equal` compares.

Go strings and byte slices are both byte sequences, so every string of the
source is a `List UInt8` here; `goString` spells a Go string literal.
-/

/-- The bytes of a Go string literal: its UTF-8 encoding. -/
def goString (s : String) : List UInt8 := s.toUTF8.data.toList

/-- The errors a registry call returns. -/
inductive Error where
  | groupAbsent
  | entityNotFound
  | unexpectedNumberOfEntities
  | concurrentModification
  /-- The error of the caller's context, such as `context.Canceled`. -/
  | context (message : String)
  /-- A failure of `proto.Marshal` or `proto.Unmarshal`. -/
  | proto (message : String)
  /-- The runtime panic of a write through a nil `*commonv1.Metadata`, or of an
  unmarshal into a nil message. -/
  | nilPointerDereference
  /-- `errors.Wrap(cause, message)`. -/
  | wrap (cause : Error) (message : List UInt8)
  deriving DecidableEq, Repr

/-- A caller's `context.Context`: its `Err()`, which every substrate call made
with it returns instead of running. -/
structure Context where
  err : Option Error
  deriving DecidableEq, Repr

def Context.background : Context := ⟨none⟩

namespace Commonv1

inductive Catalog where
  | unspecified
  | stream
  | measure
  deriving DecidableEq, Repr

structure Metadata where
  group : List UInt8
  name : List UInt8
  id : UInt32
  createRevision : Int
  modRevision : Int
  deriving DecidableEq, Repr

/-- `GetGroup()` of a possibly nil `*Metadata`. -/
def getGroup : Option Metadata → List UInt8
  | some metadata => metadata.group
  | none => []

def getName : Option Metadata → List UInt8
  | some metadata => metadata.name
  | none => []

inductive DurationUnit where
  | unspecified
  | hour
  | day
  | week
  | month
  deriving DecidableEq, Repr

structure Duration where
  val : UInt32
  unit : DurationUnit
  deriving DecidableEq, Repr

/-- The `tag_value` oneof of an interval rule. -/
inductive TagValue where
  | str (value : List UInt8)
  | int (value : Int)
  deriving DecidableEq, Repr

structure IntervalRule where
  tagName : List UInt8
  tagValue : Option TagValue
  interval : List UInt8
  blockNum : UInt32
  ttl : Option Duration
  deriving DecidableEq, Repr

structure ResourceOpts where
  shardNum : UInt32
  intervalRules : List IntervalRule
  deriving DecidableEq, Repr

structure Timestamp where
  seconds : Int
  nanos : Int
  deriving DecidableEq, Repr

structure Group where
  metadata : Option Metadata
  catalog : Catalog
  resourceOpts : Option ResourceOpts
  updatedAt : Option Timestamp
  deriving DecidableEq, Repr

end Commonv1

namespace Databasev1

structure Stream where
  metadata : Option Commonv1.Metadata
  rest : List UInt8
  deriving DecidableEq, Repr

structure Measure where
  metadata : Option Commonv1.Metadata
  rest : List UInt8
  deriving DecidableEq, Repr

structure IndexRuleBinding where
  metadata : Option Commonv1.Metadata
  rest : List UInt8
  deriving DecidableEq, Repr

structure IndexRule where
  metadata : Option Commonv1.Metadata
  rest : List UInt8
  deriving DecidableEq, Repr

end Databasev1

/-- Modelled from the spec: the entity kinds (`KindGroup` … `KindIndexRule`,
declared outside src/), each one bit of a handler's interest mask. -/
inductive Kind where
  | group
  | stream
  | measure
  | indexRuleBinding
  | indexRule
  deriving DecidableEq, Repr

/-- The kind's bit, `1 << iota` in declaration order. -/
def Kind.bit : Kind → Nat
  | .group => 1
  | .stream => 2
  | .measure => 4
  | .indexRuleBinding => 8
  | .indexRule => 16

/-- Modelled from the spec: `KindMask`, the union of every kind's bit. -/
def kindMask : Nat := 31

/-- A `proto.Message` of one of the five stored types. -/
inductive Message where
  | group (group : Commonv1.Group)
  | stream (stream : Databasev1.Stream)
  | measure (measure : Databasev1.Measure)
  | indexRuleBinding (binding : Databasev1.IndexRuleBinding)
  | indexRule (rule : Databasev1.IndexRule)
  deriving DecidableEq, Repr

namespace Message

def kind : Message → Kind
  | .group _ => .group
  | .stream _ => .stream
  | .measure _ => .measure
  | .indexRuleBinding _ => .indexRuleBinding
  | .indexRule _ => .indexRule

/-- `GetMetadata()`, which every stored message has (`HasMetadata`). -/
def getMetadata : Message → Option Commonv1.Metadata
  | .group value => value.metadata
  | .stream value => value.metadata
  | .measure value => value.metadata
  | .indexRuleBinding value => value.metadata
  | .indexRule value => value.metadata

def setMetadata (metadata : Option Commonv1.Metadata) : Message → Message
  | .group value => .group { value with metadata }
  | .stream value => .stream { value with metadata }
  | .measure value => .measure { value with metadata }
  | .indexRuleBinding value => .indexRuleBinding { value with metadata }
  | .indexRule value => .indexRule { value with metadata }

@[simp] theorem kind_setMetadata (message : Message) (metadata : Option Commonv1.Metadata) :
    (message.setMetadata metadata).kind = message.kind := by
  cases message <;> rfl

@[simp] theorem getMetadata_setMetadata (message : Message) (metadata : Option Commonv1.Metadata) :
    (message.setMetadata metadata).getMetadata = metadata := by
  cases message <;> rfl

theorem setMetadata_getMetadata (message : Message) :
    message.setMetadata message.getMetadata = message := by
  cases message <;> rfl

/-- "Assign readonly fields": the write of the substrate's revisions through
`GetMetadata()`, which panics on a message without metadata. -/
def assignRevisions (message : Message) (createRevision modRevision : Int) :
    Except Error Message :=
  match message.getMetadata with
  | some metadata => .ok (message.setMetadata (some { metadata with createRevision, modRevision }))
  | none => .error .nilPointerDereference

theorem assignRevisions_ok {message message' : Message} {createRevision modRevision : Int}
    (assigned : message.assignRevisions createRevision modRevision = .ok message') :
    ∃ metadata, message.getMetadata = some metadata ∧
      message' = message.setMetadata (some { metadata with createRevision, modRevision }) := by
  unfold assignRevisions at assigned
  split at assigned
  · cases assigned
    exact ⟨_, ‹_›, rfl⟩
  · cases assigned

end Message

end BanyanSchema
