import OData.Parameters

/-!
# Resource paths

The path of a resource below the service: segments, each with a name, with parameters, or with
both. Names are taken literally and escaped when the path is written, so a slash inside a name
never starts a new segment.
-/

set_option autoImplicit false

namespace OData

open OData.Text

structure Path.Segment where
  name : Option String
  parameters : Option Parameters
  deriving DecidableEq, Repr

structure Path where
  segments : List Path.Segment
  deriving DecidableEq, Repr

namespace Path

def root : Path := ⟨[]⟩

def segment (p : Path) (name : String) : Path := ⟨p.segments ++ [⟨some name, none⟩]⟩

/-- The path with a segment at its end that is made of parameters alone. -/
def parameterSegment (p : Path) (ps : Parameters) : Path := ⟨p.segments ++ [⟨none, some ps⟩]⟩

/-- The path whose last segment has these parameters in place of any it had; a path without
segments gets one made of them. -/
def withParameters (p : Path) (ps : Parameters) : Path :=
  match p.segments.getLast? with
  | none => p.parameterSegment ps
  | some last => ⟨p.segments.dropLast ++ [{ last with parameters := some ps }]⟩

def of (name : String) : Path := root.segment name

def ofKey (set : String) (key : Parameters) : Path := (of set).withParameters key

/-- The path whose segments are the non-empty pieces between slashes. -/
def ofText (s : String) : Path :=
  ⟨((splitOn '/' s.toList).filter (!·.isEmpty)).map fun piece =>
    ⟨some (String.ofList piece), none⟩⟩

def isEmpty (p : Path) : Bool := p.segments.isEmpty

def Segment.chars (e : Escaping) (s : Segment) : List Char :=
  (match s.name with
    | none => []
    | some name => e.segment name.toList) ++
  match s.parameters with
    | none => []
    | some ps => ps.chars e .path

def chars (p : Path) (e : Escaping) : List Char :=
  p.segments.flatMap fun s => '/' :: s.chars e

def render (p : Path) (e : Escaping) : String := String.ofList (p.chars e)

def warnings (p : Path) : List Warning :=
  p.segments.flatMap fun s => (s.parameters.map Parameters.warnings).getD []

end Path

end OData
