import OData.Json.Numeral
import OData.Json.Quotation
import OData.Json.Shape

/-!
# The JSON reading machine

Reads a document byte by byte, from left to right and without going back. What is wanted of the
document decides how it is read: a value of some shape is built, anything else is passed over, and
on the way down to a collection the machine *descends* through objects to a list whose elements it
hands out one by one, each as soon as it is complete.

Passing over is laxer than building: strings need not be UTF-8, numbers may be out of range and
nesting has no limit. Values that are built may be nested 127 deep.

After a fault the machine does not stop at once. It reads on through the containers that are open,
innermost first, as far as their closing brackets follow one another; a stream that is read this
way is a little further along than the fault itself.
-/

set_option autoImplicit false

namespace OData.Json

variable {ρ : Type}

/-! ## State -/

inductive Want (ρ : Type) where
  | skip
  | build (s : Shape ρ)
  | descend (place : Place) (element : Shape ρ)
  deriving DecidableEq, Repr

inductive Item where
  | skipped
  | value (v : Json)
  /-- The number of elements handed out, if there was a list at the place. -/
  | count (n : Option Nat)
  deriving Repr

/-- A container that is open, with what has been read of it, newest first. -/
inductive Frame (ρ : Type) where
  | list (element : Shape ρ) (items : List Json)
  | object (members : List (String × Json)) (name : String)
  /-- A record written as an object; `name` is the member being read. -/
  | record (kind : ρ) (members : List (String × Json)) (name : String)
  /-- A record written as a list; `fields` are those still to come. -/
  | row (fields : List (Field ρ)) (members : List (String × Json))
  /-- An object on the way to the list; `found` is what came of the member that leads there. -/
  | level (names : List String) (rest : Place) (element : Shape ρ) (found : Option Nat)
  | elements (element : Shape ρ) (count : Nat)
  | skippedList
  | skippedObject
  deriving Repr

inductive Closer where
  | list
  | object
  /-- One byte that is looked at but not used. -/
  | look
  deriving DecidableEq, Repr

inductive Phase (ρ : Type) where
  /-- Before a value, or before the end of the list if that is allowed. -/
  | value (want : Want ρ) (orEnd : Bool)
  | afterValue
  /-- Before the name of a member, or before the end of the object if that is allowed. -/
  | name (orEnd : Bool)
  | colon (want : Want ρ)
  | memberName (q : Quotation)
  | quotation (q : Quotation) (want : Want ρ)
  | numeral (n : Numeral) (want : Want ρ)
  | word (rest : List Nat) (v : Json) (want : Want ρ)
  /-- After a fault. -/
  | faulted (waiting : List Closer)
  deriving Repr

/-- A machine: where it stands, the open containers innermost first, the elements handed out so
far newest first, and the result once the document is complete. -/
structure Machine (ρ : Type) where
  phase : Phase ρ
  stack : List (Frame ρ) := []
  handed : List Json := []
  result : Option Item := none
  deriving Repr

def Machine.start (want : Want ρ) : Machine ρ := { phase := .value want false }

/-! ## Faults -/

def isGap (b : Nat) : Bool := b == 0x20 || b == 0x0A || b == 0x09 || b == 0x0D

/-- What is read on for once `b`, which is no blank, has been seen. -/
def settle : List Closer → Nat → List Closer
  | [], _ => []
  | .look :: cs, b => settle cs b
  | .list :: cs, b =>
    if b = 0x5D then cs else if b = 0x2C then .look :: cs else settle cs b
  | .object :: cs, b => if b = 0x7D then cs else settle cs b

/-- The bracket that a container waits for; one that is passed over waits for nothing. -/
def Frame.closer? : Frame ρ → Option Closer
  | .list .. | .row .. | .elements .. => some .list
  | .object .. | .record .. | .level .. => some .object
  | .skippedList | .skippedObject => none

namespace Machine

def fault (m : Machine ρ) : Machine ρ :=
  { m with phase := .faulted (m.stack.filterMap Frame.closer?) }

/-- A fault at a byte that was only looked at. -/
def faultAt (m : Machine ρ) (b : Nat) : Machine ρ :=
  let waiting := m.stack.filterMap Frame.closer?
  { m with phase := .faulted (if isGap b then waiting else settle waiting b) }

def isStopped (m : Machine ρ) : Bool :=
  match m.phase with
  | .faulted [] => true
  | _ => false

/-! ## Completed values -/

/-- A value is complete: it goes into the innermost container, or is the result. -/
def deliver (m : Machine ρ) (item : Item) : Machine ρ :=
  let m := { m with phase := .afterValue }
  match m.stack, item with
  | [], item => { m with result := some item }
  | .list element items :: st, .value v => { m with stack := .list element (v :: items) :: st }
  | .object members name :: st, .value v =>
    { m with stack := .object ((name, v) :: members) name :: st }
  | .record kind members name :: st, .value v =>
    { m with stack := .record kind ((name, v) :: members) name :: st }
  | .row (f :: fields) members :: st, .value v =>
    { m with stack := .row fields ((f.name, v) :: members) :: st }
  | .level names rest element _ :: st, .count n =>
    { m with stack := .level names rest element n :: st }
  | .elements element n :: st, .value v =>
    { m with stack := .elements element (n + 1) :: st, handed := v :: m.handed }
  | _, _ => m

/-- A scalar is complete; what was wanted may refuse it. -/
def scalar? (m : Machine ρ) (want : Want ρ) (v : Json) : Option (Machine ρ) :=
  match want with
  | .skip => some (m.deliver .skipped)
  | .build s => (s.scalar? v).map fun v => m.deliver (.value v)
  | .descend _ _ => none

/-- Leaves the innermost container for the next one out. -/
def close (m : Machine ρ) (st : List (Frame ρ)) (item : Item) : Machine ρ :=
  ({ m with stack := st }).deliver item

/-- The closing bracket `b` of the innermost container, as far as it fits. -/
def closeAt (schema : Schema ρ) (m : Machine ρ) (b : Nat) : Machine ρ :=
  match m.stack with
  | .list _ items :: st => if b = 0x5D then m.close st (.value (.list items.reverse)) else m.faultAt b
  | .row fields members :: st =>
    if b = 0x5D ∧ fields.all (!·.inList) then m.close st (.value (.object members.reverse))
    else m.faultAt b
  | .elements _ n :: st => if b = 0x5D then m.close st (.count (some n)) else m.faultAt b
  | .skippedList :: st => if b = 0x5D then m.close st .skipped else m.faultAt b
  | .object members _ :: st =>
    if b = 0x7D then m.close st (.value (.object members.reverse)) else m.faultAt b
  | .record kind members _ :: st =>
    if b = 0x7D ∧ hasFields (schema kind) members then
      m.close st (.value (.object members.reverse))
    else m.faultAt b
  | .level _ _ _ found :: st => if b = 0x7D then m.close st (.count found) else m.faultAt b
  | .skippedObject :: st => if b = 0x7D then m.close st .skipped else m.faultAt b
  | [] => m.faultAt b

/-! ## Values -/

def depth (m : Machine ρ) : Nat := (m.stack.filterMap Frame.closer?).length

def depthLimit : Nat := 127

/-- Opens a container that is built, if it is not too deep. -/
def openFrame (m : Machine ρ) (frame : Frame ρ) (phase : Phase ρ) (b : Nat) : Machine ρ :=
  if m.depth < depthLimit then { m with stack := frame :: m.stack, phase := phase }
  else m.faultAt b

def openList (schema : Schema ρ) (m : Machine ρ) (want : Want ρ) : Machine ρ :=
  let b := 0x5B
  match want with
  | .skip => { m with stack := .skippedList :: m.stack, phase := .value .skip true }
  | .descend [] element => m.openFrame (.elements element 0) (.value (.build element) true) b
  | .descend (_ :: _) _ => m.faultAt b
  | .build s =>
    match s.core with
    | .any => m.openFrame (.list .any []) (.value (.build .any) true) b
    | .list element => m.openFrame (.list element []) (.value (.build element) true) b
    | .record kind =>
      let fields := schema kind
      m.openFrame (.row fields [])
        (.value (((fields.head?).map fun f => Want.build f.shape).getD .skip) true) b
    | _ => m.faultAt b

def openObject (m : Machine ρ) (want : Want ρ) : Machine ρ :=
  let b := 0x7B
  match want with
  | .skip => { m with stack := .skippedObject :: m.stack, phase := .name true }
  | .descend [] _ => m.faultAt b
  | .descend (names :: rest) element => m.openFrame (.level names rest element none) (.name true) b
  | .build s =>
    match s.core with
    | .any | .object => m.openFrame (.object [] "") (.name true) b
    | .record kind => m.openFrame (.record kind [] "") (.name true) b
    | _ => m.faultAt b

def beginValue (schema : Schema ρ) (m : Machine ρ) (want : Want ρ) (b : Nat) : Machine ρ :=
  if b = 0x22 then { m with phase := .quotation {} want }
  else if b = 0x5B then m.openList schema want
  else if b = 0x7B then m.openObject want
  else if b = 0x6E then { m with phase := .word [0x75, 0x6C, 0x6C] .null want }
  else if b = 0x74 then { m with phase := .word [0x72, 0x75, 0x65] (.boolean true) want }
  else if b = 0x66 then { m with phase := .word [0x61, 0x6C, 0x73, 0x65] (.boolean false) want }
  else
    match Numeral.start? b with
    | some n => { m with phase := .numeral n want }
    | none => m.faultAt b

def number? (m : Machine ρ) (want : Want ρ) (n : Numeral) : Option (Machine ρ) :=
  match want with
  | .skip => m.scalar? .skip .null
  | want => n.value?.bind (m.scalar? want)

/-! ## Members -/

/-- The name of a member is complete. A record refuses a field it has already. -/
def named (schema : Schema ρ) (m : Machine ρ) (name : String) : Machine ρ :=
  match m.stack with
  | .object members _ :: st =>
    { m with stack := .object members name :: st, phase := .colon (.build .any) }
  | .record kind members _ :: st =>
    match fieldOf? (schema kind) name with
    | none => { m with phase := .colon .skip }
    | some f =>
      if members.any (·.1 == name) then m.fault
      else { m with stack := .record kind members name :: st, phase := .colon (.build f.shape) }
  | .level names rest element none :: _ =>
    if names.contains name then { m with phase := .colon (.descend rest element) }
    else { m with phase := .colon .skip }
  | _ => { m with phase := .colon .skip }

/-- Whether the innermost container is passed over. -/
def isSkipping (m : Machine ρ) : Bool :=
  match m.stack with
  | .skippedList :: _ | .skippedObject :: _ => true
  | _ => false

def afterValue (schema : Schema ρ) (m : Machine ρ) (b : Nat) : Machine ρ :=
  if isGap b then m
  else if b = 0x2C then
    match m.stack with
    | .list element _ :: _ | .elements element _ :: _ =>
      { m with phase := .value (.build element) false }
    | .row (f :: _) _ :: _ => { m with phase := .value (.build f.shape) false }
    | .skippedList :: _ => { m with phase := .value .skip false }
    | .object .. :: _ | .record .. :: _ | .level .. :: _ | .skippedObject :: _ =>
      { m with phase := .name false }
    | .row [] _ :: _ | [] => m.faultAt b
  else m.closeAt schema b

/-! ## Running -/

def step (schema : Schema ρ) (m : Machine ρ) (byte : UInt8) : Machine ρ :=
  let b := byte.toNat
  match m.phase with
  | .value want orEnd =>
    if isGap b then m
    else if orEnd && b == 0x5D then m.closeAt schema b
    else m.beginValue schema want b
  | .afterValue => m.afterValue schema b
  | .name orEnd =>
    if isGap b then m
    else if b = 0x22 then { m with phase := .memberName {} }
    else if orEnd && b == 0x7D then m.closeAt schema b
    else m.faultAt b
  | .colon want =>
    if isGap b then m
    else if b = 0x3A then { m with phase := .value want false }
    else m.faultAt b
  | .memberName q =>
    match q.step (!m.isSkipping) byte with
    | .more q => { m with phase := .memberName q }
    | .malformed => m.fault
    | .done bytes =>
      if m.isSkipping then { m with phase := .colon .skip }
      else
        match Quotation.text? bytes with
        | some name => m.named schema name
        | none => m.fault
  | .quotation q want =>
    let keep := want matches .build _ | .descend _ _
    match q.step keep byte with
    | .more q => { m with phase := .quotation q want }
    | .malformed => m.fault
    | .done bytes =>
      if keep then
        (((Quotation.text? bytes).bind fun s => m.scalar? want (.text s))).getD m.fault
      else m.deliver .skipped
  | .numeral n want =>
    match n.step (want matches .build _ | .descend _ _) b with
    | .more n => { m with phase := .numeral n want }
    | .malformed true => m.fault
    | .malformed false => m.faultAt b
    | .done => ((m.number? want n).map (·.afterValue schema b)).getD (m.faultAt b)
  | .word rest v want =>
    match rest with
    | [] => m.fault
    | [c] => if b = c then (m.scalar? want v).getD m.fault else m.fault
    | c :: d :: rest => if b = c then { m with phase := .word (d :: rest) v want } else m.fault
  | .faulted waiting =>
    if isGap b then m else { m with phase := .faulted (settle waiting b) }

/-- Runs a machine over some bytes until it reads no further; what is left of them is not read. -/
def run (schema : Schema ρ) : Machine ρ → List UInt8 → Machine ρ × List UInt8
  | m, [] => (m, [])
  | m, b :: r => if m.isStopped then (m, b :: r) else run schema (m.step schema b) r

/-- The machine at the end of the bytes, which also ends a number. -/
def ended (m : Machine ρ) : Machine ρ :=
  match m.phase with
  | .numeral n want => if n.isComplete then (m.number? want n).getD m.fault else m
  | _ => m

def complete? (m : Machine ρ) : Option Item :=
  match m.phase with
  | .afterValue => if m.stack.isEmpty then m.result else none
  | _ => none

end Machine

end OData.Json
