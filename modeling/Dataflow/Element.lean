import Dataflow.Tap

/-!
# Elements

The kinds of element that a pipeline is made of: taps, per-tuple operations,
groupings and joins, and the two extents that bound every traversal.
-/
namespace Dataflow

/-- The two sentinels: `head` feeds every source, every sink feeds `tail`. -/
inductive Extent where
  | head
  | tail
  deriving DecidableEq, Repr

inductive Role where
  | function
  | filter
  | aggregator
  | buffer
  | assertion
  deriving DecidableEq, Repr

/-- Which fields an operation passes on. -/
inductive Output where
  /-- The declared results alone. -/
  | results
  /-- The incoming fields, then the declared results. -/
  | all
  /-- The incoming fields without the arguments, then the declared results. -/
  | swap
  deriving DecidableEq, Repr

structure Operation where
  name : String
  role : Role
  /-- `none` selects every incoming field. -/
  arguments : Option Fields
  declared : Fields
  output : Output
  deriving DecidableEq, Repr

inductive Joiner where
  | inner
  | outer
  | left
  | right
  /-- A user-supplied join, by name. -/
  | custom (name : String)
  deriving DecidableEq, Repr

structure Join where
  keys : Fields
  joiner : Joiner
  declared : Option Fields
  deriving DecidableEq, Repr

/-- An inner join that declares nothing. -/
def Join.on (keys : Fields) : Join := ⟨keys, .inner, none⟩

/-- The output fields are left to a custom joiner. Mirrors `defers_to_joiner`. -/
def Join.defers (j : Join) : Bool :=
  match j.declared, j.joiner with
  | none, .custom _ => true
  | _, _ => false

inductive GroupKind where
  | groupBy
  | coGroup
  deriving DecidableEq, Repr

def GroupKind.label : GroupKind → String
  | .groupBy => "group-by"
  | .coGroup => "co-group"

/-- Mirrors `ElementKind`. -/
inductive Kind where
  | extent (e : Extent)
  | source (tap : Tap)
  | sink (tap : Tap)
  /-- An intermediate tap between two steps. -/
  | boundary (tap : Tap)
  /-- A named pass-through. -/
  | pipe
  | each (op : Operation)
  | every (op : Operation)
  | merge
  /-- A grouping; a group-by looks at the keys alone. -/
  | group (kind : GroupKind) (join : Join)
  | hashJoin (join : Join)
  deriving DecidableEq, Repr

namespace Kind

def tap? : Kind → Option Tap
  | source t | sink t | boundary t => some t
  | _ => none

/-- Replaces the fields of the tap, if there is one. -/
def withTapFields (fields : Fields) : Kind → Kind
  | source t => source { t with fields }
  | sink t => sink { t with fields }
  | boundary t => boundary { t with fields }
  | k => k

def isExtent : Kind → Bool
  | extent _ => true
  | _ => false

def isTap (k : Kind) : Bool := k.tap?.isSome

def isBoundary : Kind → Bool
  | boundary _ => true
  | _ => false

def isGrouping : Kind → Bool
  | group _ _ => true
  | _ => false

def isEvery : Kind → Bool
  | every _ => true
  | _ => false

/-- Per-tuple work inside a step. -/
def isProcessing : Kind → Bool
  | pipe | each _ | every _ | merge | hashJoin _ => true
  | extent _ | source _ | sink _ | boundary _ | group _ _ => false

def isBuffer : Kind → Bool
  | every op => op.role == .buffer
  | _ => false

/-- What an every may be fed by. -/
def feedsEvery (k : Kind) : Bool := k.isGrouping || k.isEvery

def label : Kind → String
  | extent .head => "head"
  | extent .tail => "tail"
  | source _ => "source"
  | sink _ => "sink"
  | boundary _ => "boundary"
  | pipe => "pipe"
  | each _ => "each"
  | every _ => "every"
  | merge => "merge"
  | group kind _ => kind.label
  | hashJoin _ => "hash-join"

end Kind

structure Element where
  name : String
  kind : Kind
  deriving DecidableEq, Repr

/-- The label, and the name of whatever is not an extent. -/
def Element.display (e : Element) : String :=
  if e.kind.isExtent then e.kind.label else s!"{e.kind.label} `{e.name}`"

end Dataflow
