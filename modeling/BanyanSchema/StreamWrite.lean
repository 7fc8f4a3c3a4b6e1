import BanyanSchema.IndexField

namespace BanyanSchema

/-! # Stream write requests

`StreamWriteRequestBuilder` builds a `streamv1.WriteRequest` step by step;
its tags come from Go values through `getTag`. The builder always holds the
element `NewStreamWriteRequestBuilder` allocated, so its setters never meet a
nil element. A tag the builder records can be indexed exactly when its Go value
was an `int`, a `string` or a `[]byte`.
-/

namespace Go

/-- A Go value passed as `interface{}`, by the dynamic types `getTag` tells
apart: `nil`, an `int` (64 bits wide on the platforms the server builds for),
a `string`, a `[]byte`, or a value of any other type. -/
inductive Value where
  | nil
  | int (value : BitVec 64)
  | string (value : List UInt8)
  | bytes (value : List UInt8)
  | other
  deriving DecidableEq, Repr

end Go

/-- `getTag`: the `Null` tag for `nil`; the `Int`, `Str` or `BinaryData` tag
of an `int`, a `string` or a `[]byte`; a nil tag value for any other type. -/
def getTag : Go.Value → Option Modelv1.TagValue
  | .nil => some .null
  | .int t => some (.int t)
  | .string t => some (.str t)
  | .bytes t => some (.binaryData t)
  | .other => none

namespace Modelv1

/-- Modelled from the spec: `modelv1.TagFamilyForWrite` (declared outside src/). -/
structure TagFamilyForWrite where
  tags : List (Option TagValue)
  deriving DecidableEq, Repr

end Modelv1

namespace Streamv1

/-- Modelled from the spec: `streamv1.ElementValue` (declared outside src/),
with the fields the builder sets. -/
structure ElementValue where
  elementId : List UInt8
  timestamp : Option Commonv1.Timestamp
  tagFamilies : List Modelv1.TagFamilyForWrite
  deriving DecidableEq, Repr

/-- Modelled from the spec: `streamv1.WriteRequest` (declared outside src/). -/
structure WriteRequest where
  metadata : Option Commonv1.Metadata
  element : Option ElementValue
  deriving DecidableEq, Repr

end Streamv1

/-- `StreamWriteRequestBuilder`: the metadata of the request it builds, and
its element, which the builder allocates and never sets to nil. -/
structure StreamWriteRequestBuilder where
  requestMetadata : Option Commonv1.Metadata
  element : Streamv1.ElementValue
  deriving DecidableEq, Repr

def newStreamWriteRequestBuilder : StreamWriteRequestBuilder :=
  ⟨none, ⟨[], none, []⟩⟩

namespace StreamWriteRequestBuilder

def metadata (b : StreamWriteRequestBuilder) (group name : List UInt8) : StreamWriteRequestBuilder :=
  { b with requestMetadata := some ⟨group, name, 0, 0, 0⟩ }

def id (b : StreamWriteRequestBuilder) (id : List UInt8) : StreamWriteRequestBuilder :=
  { b with element := { b.element with elementId := id } }

def timestamp (b : StreamWriteRequestBuilder) (t : Commonv1.Timestamp) : StreamWriteRequestBuilder :=
  { b with element := { b.element with timestamp := some t } }

def tagFamily (b : StreamWriteRequestBuilder) (tags : List Go.Value) : StreamWriteRequestBuilder :=
  { b with element := { b.element with
      tagFamilies := b.element.tagFamilies ++ [⟨tags.foldl (fun family tag => family ++ [getTag tag]) []⟩] } }

def build (b : StreamWriteRequestBuilder) : Streamv1.WriteRequest :=
  ⟨b.requestMetadata, some b.element⟩

@[simp] theorem build_metadata (b : StreamWriteRequestBuilder) (group name : List UInt8) :
    (b.metadata group name).build = { b.build with metadata := some ⟨group, name, 0, 0, 0⟩ } := rfl

@[simp] theorem build_id (b : StreamWriteRequestBuilder) (id : List UInt8) :
    (b.id id).build = { b.build with element := some { b.element with elementId := id } } := rfl

@[simp] theorem build_timestamp (b : StreamWriteRequestBuilder) (t : Commonv1.Timestamp) :
    (b.timestamp t).build = { b.build with element := some { b.element with timestamp := some t } } := rfl

theorem foldl_getTag (family : List (Option Modelv1.TagValue)) :
    ∀ tags : List Go.Value,
      tags.foldl (fun family tag => family ++ [getTag tag]) family = family ++ tags.map getTag
  | [] => by simp
  | tag :: tags => by simp [foldl_getTag (family ++ [getTag tag]) tags]

@[simp] theorem build_tagFamily (b : StreamWriteRequestBuilder) (tags : List Go.Value) :
    (b.tagFamily tags).build = { b.build with element := some { b.element with
      tagFamilies := b.element.tagFamilies ++ [⟨tags.map getTag⟩] } } := by
  simp [tagFamily, build, foldl_getTag]

end StreamWriteRequestBuilder

end BanyanSchema
