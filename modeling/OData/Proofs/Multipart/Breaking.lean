import OData.Proofs.Multipart.Calls
import OData.Proofs.Text.Lines

/-!
# Streams that break off

A body of which only the first bytes arrive. What its reader gives out has been read from lines that
arrived whole, so it is what the reader of the whole body gives out at that place: **reading that
succeeds on a broken stream does the same on the mended one** (`Mends`). Where it fails, all lines
are used up, and nothing can be read any more (`Spent`). So the replies to any calls are those of the
whole body up to a failure, and after it only `noMore` and more failures (`BreaksOff`).
-/

set_option autoImplicit false

namespace OData.Multipart

open OData.Text
open Reading

variable {α β : Type}

/-! ## Mending -/

/-- The reader of a stream that does not break off but goes on with some lines. -/
def Reader.mended (r : Reader) (more : List Line) : Reader :=
  { r with lines := r.lines ++ more, broken := false }

namespace Reading

theorem untilDelimiter_append {boundary : List Char} {ls rest : List Line}
    {top : List (List Char)} {stop : Stop} (h : untilDelimiter boundary ls = (top, stop, rest))
    (hs : stop ≠ .exhausted) (more : List Line) :
    untilDelimiter boundary (ls ++ more) = (top, stop, rest ++ more) := by
  induction ls generalizing top with
  | nil =>
    cases h
    exact absurd rfl hs
  | cons l ls ih =>
    unfold untilDelimiter at h
    rw [List.cons_append, untilDelimiter]
    split at h
    · next hd =>
      cases h
      rw [if_pos hd]
    split at h
    · next hd ht =>
      cases h
      rw [if_neg hd, if_pos ht]
    · next hd ht =>
      cases h
      rw [if_neg hd, if_neg ht, ih rfl]

theorem untilEmpty_append {ls rest : List Line} {top : List (List Char)}
    (h : untilEmpty ls = (top, true, rest)) (more : List Line) :
    untilEmpty (ls ++ more) = (top, true, rest ++ more) := by
  induction ls generalizing top with
  | nil => cases h
  | cons l ls ih =>
    unfold untilEmpty at h
    rw [List.cons_append, untilEmpty]
    split at h
    · next he =>
      cases h
      rw [if_pos he]
    · next he =>
      obtain ⟨rfl, htail⟩ := Prod.mk.inj h
      rw [if_neg he, ih (Prod.ext rfl htail)]

/-- Reading that, where it succeeds on a broken stream, gives the same on the mended one. -/
def Mends (x : Reading α) : Prop :=
  ∀ r a r' more, r.broken = true → on r x = (.ok a, r') →
    r'.broken = true ∧ on (r.mended more) x = (.ok a, r'.mended more)

namespace Mends

theorem pure (a : α) : Mends (pure a : Reading α) := by
  intro r a' r' more hb h
  cases h
  exact ⟨hb, rfl⟩

theorem bind {x : Reading α} {f : α → Reading β} (hx : Mends x) (hf : ∀ a, Mends (f a)) :
    Mends (x >>= f) := by
  intro r b r' more hb h
  obtain ⟨a, r₁, h₁, h₂⟩ := on_bind_eq_ok h
  obtain ⟨hb₁, hm₁⟩ := hx r a r₁ more hb h₁
  obtain ⟨hb', hm'⟩ := hf a r₁ b r' more hb₁ h₂
  exact ⟨hb', (on_bind_ok hm₁ f).trans hm'⟩

theorem discard {x : Reading α} (hx : Mends x) : Mends (Functor.discard x) := by
  intro r u r' more hb h
  rw [on_discard] at h
  obtain ⟨hu, hr⟩ := Prod.mk.inj h
  cases ho : (on r x).1 with
  | error e =>
    rw [ho] at hu
    cases hu
  | ok a =>
    obtain ⟨hb', hm⟩ := hx r a r' more hb (Prod.ext ho hr)
    exact ⟨hb', on_discard_ok hm⟩

/-- A change to the reader that has nothing to do with its stream. -/
theorem modify {f : Reader → Reader} (hb : ∀ r, (f r).broken = r.broken)
    (hf : ∀ r more, f (r.mended more) = (f r).mended more) :
    Mends (modify f : Reading Unit) := by
  intro r u r' more hr h
  cases h
  refine ⟨(hb r).trans hr, ?_⟩
  rw [← hf r more]
  rfl

/-- What is read may depend on the reader, as long as more lines make no difference there. -/
theorem of_get {f : Reader → Reading α} (hf : ∀ r, Mends (f r))
    (hsame : ∀ r more, on r (f r) = on r (f (r.mended more))) : Mends (get >>= f) := by
  intro r a r' more hb h
  rw [on_get_bind, hsame r more] at h
  exact hf (r.mended more) r a r' more hb h

end Mends

/-! ### Each operation -/

theorem mends_block (boundary : List Char) : Mends (block boundary) := by
  intro r a r' more hb h
  rcases hu : untilDelimiter boundary r.lines with ⟨top, stop, rest⟩
  rw [on_block r boundary hu] at h
  obtain ⟨ha, rfl⟩ := Prod.mk.inj h
  rw [hb, Bool.and_true] at ha
  split at ha
  · cases ha
  · next hs =>
    cases ha
    have hstop : stop ≠ .exhausted := by
      rintro rfl
      exact hs rfl
    exact ⟨hb, on_block_unbroken (r := r.mended more) rfl (untilDelimiter_append hu hstop more)⟩

theorem mends_head : Mends head := by
  intro r a r' more hb h
  rcases hu : untilEmpty r.lines with ⟨top, found, rest⟩
  rw [on_head r hu] at h
  obtain ⟨ha, rfl⟩ := Prod.mk.inj h
  rw [hb, Bool.and_true] at ha
  cases found with
  | false => cases ha
  | true =>
    cases ha
    exact ⟨hb, on_head_unbroken (r := r.mended more) rfl (untilEmpty_append hu more)⟩

theorem mends_outerBlock : Mends outerBlock := by
  refine .of_get (fun r => ?_) fun _ _ => rfl
  refine (mends_block r.boundary).bind fun ⟨top, stop⟩ => ?_
  dsimp only
  split
  · exact Mends.bind (.modify (fun _ => rfl) fun _ _ => rfl) fun _ => .pure _
  · exact .pure _

theorem mends_nextInChangeset : Mends nextInChangeset := by
  refine .of_get (fun r => ?_) fun _ _ => rfl
  split
  · exact .pure _
  · next boundary _ =>
    refine mends_head.bind fun _ => ?_
    refine (mends_block boundary).bind fun _ => ?_
    dsimp only
    split
    · refine Mends.bind (.modify (fun _ => rfl) fun _ _ => rfl) fun _ => ?_
      exact mends_outerBlock.discard.bind fun _ => .pure _
    · exact .pure _

theorem mends_skipChangeset (n : Nat) : Mends (skipChangeset n) := by
  induction n with
  | zero => exact .pure _
  | succ n ih =>
    refine mends_nextInChangeset.bind fun e => ?_
    cases e with
    | none => exact .pure _
    | some _ => exact ih

theorem mends_partUnder (top : List (List Char)) : Mends (partUnder top) := by
  unfold partUnder
  split
  · refine (mends_block _).bind fun _ => ?_
    dsimp only
    split
    · exact mends_outerBlock.discard.bind fun _ => .pure _
    · exact Mends.bind (.modify (fun _ => rfl) fun _ _ => rfl) fun _ => .pure _
  · exact mends_outerBlock.bind fun _ => .pure _

theorem mends_skipPreamble : Mends skipPreamble := by
  refine .of_get (fun r => ?_) fun _ _ => rfl
  split
  · exact Mends.bind (.modify (fun _ => rfl) fun _ _ => rfl) fun _ => mends_outerBlock.discard
  · exact .pure _

theorem mends_nextPart : Mends nextPart := by
  refine mends_skipPreamble.bind fun _ => ?_
  refine .of_get (fun r => ?_) fun r more => ?_
  · refine (mends_skipChangeset _).bind fun _ => ?_
    refine .of_get (fun r' => ?_) fun _ _ => rfl
    split
    · exact .pure _
    refine mends_head.bind fun ⟨top, found⟩ => ?_
    have hrest : Mends (if (!found && top.isEmpty) = true then return none
        else return some (← partUnder top) : Reading (Option Part)) := by
      split
      · exact .pure _
      · exact (mends_partUnder top).bind fun _ => .pure _
    dsimp only
    split
    · exact Mends.bind (.modify (fun _ => rfl) fun _ _ => rfl) fun _ => hrest
    · exact hrest
  · -- The mended reader has more lines, but no more entries are to be passed over.
    have hle := stock_le r
    have hmore : r.lines.length ≤ (r.mended more).lines.length := by
      simp [Reader.mended]
    rw [on_bind, on_bind, on_skipChangeset_congr (m := (r.mended more).lines.length + 2)
      (by omega) (by omega)]

theorem mends_next (p : Part) : Mends p.next := by
  cases p with
  | single e => exact .pure _
  | changeset => exact mends_nextInChangeset.bind fun _ => .pure _

end Reading

/-! ## Nothing is left -/

/-- Of a broken stream, all that has arrived has been read. -/
structure Spent (r : Reader) : Prop where
  broken : r.broken = true
  lines : r.lines = []

namespace Spent

variable {r r' : Reader}

theorem of_onward (h : Spent r) (ho : Onward r r') : Spent r' where
  broken := ho.broken.trans h.broken
  lines := by
    have hle := ho.lines
    rw [h.lines] at hle
    exact List.eq_nil_of_length_eq_zero (Nat.le_zero.mp hle)

/-- **Where reading fails, nothing is left.** -/
theorem of_error {x : Reading α} (hx : Orderly x) {b : Broken} (h : on r x = (.error b, r')) :
    Spent r' := by
  have honward := hx.onward r
  have hspent := hx.spent r b
  rw [h] at honward hspent
  obtain ⟨hb, hl⟩ := hspent rfl
  exact ⟨honward.broken.trans hb, hl⟩

theorem on_nextPart_ne (h : Spent r) {p : Part} : on r nextPart ≠ (.ok (some p), r') := by
  intro hp
  have hlt := length_nextPart hp
  rw [h.lines] at hlt
  exact Nat.not_lt_zero _ hlt

theorem on_nextInChangeset_ne (h : Spent r) {e : Entry} :
    on r nextInChangeset ≠ (.ok (some e), r') := by
  intro he
  unfold nextInChangeset at he
  rw [on_get_bind] at he
  split at he
  · cases he
  -- The head of an entry would have to be read first.
  · obtain ⟨_, r₁, hhead, -⟩ := on_bind_eq_ok he
    have hu : untilEmpty r.lines = ([], false, []) := by rw [h.lines]; rfl
    rw [on_head r hu, h.broken] at hhead
    cases hhead

end Spent

/-! ## Calls -/

theorem orderly_next (p : Part) : Orderly p.next := by
  cases p with
  | single e => exact .pure _
  | changeset => exact orderly_nextInChangeset.bind fun _ => .pure _

/-- An entry that is a part of its own is given out once. -/
theorem ne_single_of_next {r r' : Reader} {p p' : Part} {e : Option Entry}
    (h : on r p.next = (.ok (e, p'), r')) (e' : Entry) : p' ≠ .single (some e') := by
  cases p with
  | single e =>
    cases h
    simp
  | changeset =>
    obtain ⟨rfl, -⟩ := on_next_changeset_eq_ok h
    simp

/-- A reply that gives neither a part nor an entry. -/
def Reply.GivesNothing (x : Reply) : Prop := x = .noMore ∨ x = .failed Broken.failure

namespace Cursor

def mended (c : Cursor) (more : List Line) : Cursor := { c with reader := c.reader.mended more }

/-- Nothing is left, and the part in hand is no entry that has still to be given out. -/
structure Spent (c : Cursor) : Prop where
  reader : Multipart.Spent c.reader
  inHand : ∀ e, c.inHand ≠ some (.single (some e))

/-- **Once nothing is left, no call gives anything**, and nothing comes back. -/
theorem Spent.call {c : Cursor} (h : c.Spent) (k : Call) :
    (c.call k).1.GivesNothing ∧ (c.call k).2.Spent := by
  cases k with
  | part =>
    have honward := orderly_nextPart.onward c.reader
    rcases ho : on c.reader nextPart with ⟨b | _ | p, r'⟩
    · rw [ho] at honward
      rw [call_part_error ho]
      exact ⟨.inr rfl, h.reader.of_onward honward, by simp⟩
    · rw [ho] at honward
      rw [call_part_none ho]
      exact ⟨.inl rfl, h.reader.of_onward honward, by simp⟩
    · exact absurd ho h.reader.on_nextPart_ne
  | entry =>
    cases hc : c.inHand with
    | none =>
      rw [call_entry_of_none hc]
      exact ⟨.inl rfl, h⟩
    | some p =>
      have hp := h.inHand
      rw [hc] at hp
      have honward := (orderly_next p).onward c.reader
      rcases ho : on c.reader p.next with ⟨b | ⟨_ | e, p'⟩, r'⟩
      · rw [ho] at honward
        rw [call_entry_error hc ho]
        exact ⟨.inr rfl, h.reader.of_onward honward, hp⟩
      · rw [ho] at honward
        rw [call_entry_none hc ho]
        refine ⟨.inl rfl, h.reader.of_onward honward, ?_⟩
        intro e hin
        exact ne_single_of_next ho e (Option.some.inj hin)
      · cases p with
        | single e' =>
          cases ho
          exact absurd rfl (hp e)
        | changeset => exact absurd (on_next_changeset_eq_ok ho).2 h.reader.on_nextInChangeset_ne

theorem Spent.replies {c : Cursor} (h : c.Spent) (ks : List Call) :
    ∀ x ∈ c.replies ks, x.GivesNothing := by
  induction ks generalizing c with
  | nil => simp [Cursor.replies]
  | cons k ks ih =>
    obtain ⟨hnothing, hspent⟩ := h.call k
    rw [Cursor.replies, List.forall_mem_cons]
    exact ⟨hnothing, ih hspent⟩

/-- **A call on a broken stream** fails and nothing is left, or it gives what it gives on the mended
stream. -/
theorem call_of_broken {c : Cursor} (hb : c.reader.broken = true) (k : Call) (more : List Line) :
    (c.call k).1 = .failed Broken.failure ∧ (c.call k).2.Spent ∨
      (∀ f, (c.call k).1 ≠ .failed f) ∧ (c.call k).2.reader.broken = true ∧
        (c.mended more).call k = ((c.call k).1, (c.call k).2.mended more) := by
  cases k with
  | part =>
    rcases ho : on c.reader nextPart with ⟨b | _ | p, r'⟩
    · rw [call_part_error ho]
      exact .inl ⟨rfl, .of_error orderly_nextPart ho, by simp⟩
    · obtain ⟨hb', hm⟩ := mends_nextPart _ _ _ more hb ho
      rw [call_part_none ho]
      exact .inr ⟨by simp, hb', call_part_none hm⟩
    · obtain ⟨hb', hm⟩ := mends_nextPart _ _ _ more hb ho
      rw [call_part_some ho]
      exact .inr ⟨by simp, hb', call_part_some hm⟩
  | entry =>
    cases hc : c.inHand with
    | none =>
      rw [call_entry_of_none hc]
      exact .inr ⟨by simp, hb, call_entry_of_none hc⟩
    | some p =>
      rcases ho : on c.reader p.next with ⟨b | ⟨_ | e, p'⟩, r'⟩
      · rw [call_entry_error hc ho]
        refine .inl ⟨rfl, .of_error (orderly_next p) ho, ?_⟩
        -- An entry that is a part of its own has been read already.
        rintro e hin
        cases hin
        cases ho
      · obtain ⟨hb', hm⟩ := mends_next p _ _ _ more hb ho
        rw [call_entry_none hc ho]
        exact .inr ⟨by simp, hb', call_entry_none hc hm⟩
      · obtain ⟨hb', hm⟩ := mends_next p _ _ _ more hb ho
        rw [call_entry_some hc ho]
        exact .inr ⟨by simp, hb', call_entry_some hc hm⟩

end Cursor

/-! ## Replies -/

/-- Some replies on a broken stream, beside those to the same calls on the whole one. -/
inductive BreaksOff : List Reply → List Reply → Prop where
  | nil : BreaksOff [] []
  | same {x : Reply} {xs ys : List Reply} :
      (∀ f, x ≠ .failed f) → BreaksOff xs ys → BreaksOff (x :: xs) (x :: ys)
  | fails {xs ys : List Reply} :
      (∀ x ∈ xs, x.GivesNothing) → BreaksOff (.failed Broken.failure :: xs) ys

theorem Cursor.breaksOff {c : Cursor} (hb : c.reader.broken = true) (more : List Line)
    (ks : List Call) : BreaksOff (c.replies ks) ((c.mended more).replies ks) := by
  induction ks generalizing c with
  | nil => exact .nil
  | cons k ks ih =>
    rw [replies, replies]
    rcases call_of_broken hb k more with ⟨hx, hspent⟩ | ⟨hx, hb', hm⟩
    · rw [hx]
      exact .fails (hspent.replies ks)
    · rw [hm]
      exact .same hx (ih hb')

theorem entriesIn_of_givesNothing {xs : List Reply} (h : ∀ x ∈ xs, x.GivesNothing) :
    entriesIn xs = [] := by
  induction xs with
  | nil => rfl
  | cons x xs ih =>
    obtain ⟨rfl | rfl, hxs⟩ := List.forall_mem_cons.mp h
    · exact ih hxs
    · exact ih hxs

theorem partsIn_of_givesNothing {xs : List Reply} (h : ∀ x ∈ xs, x.GivesNothing) :
    partsIn xs = [] := by
  induction xs with
  | nil => rfl
  | cons x xs ih =>
    obtain ⟨rfl | rfl, hxs⟩ := List.forall_mem_cons.mp h
    · exact ih hxs
    · exact ih hxs

/-- The first part is the second one as far as it goes. -/
structure PartRead.Within (q p : PartRead) : Prop where
  changeset : q.changeset = p.changeset
  entries : q.entries <+: p.entries

theorem PartRead.Within.trans {p q s : PartRead} (h : q.Within p) (h' : p.Within s) :
    q.Within s where
  changeset := h.changeset.trans h'.changeset
  entries := h.entries.trans h'.entries

theorem PartRead.cut_within (p : PartRead) (n : Nat) : (p.cut n).Within p :=
  ⟨rfl, List.take_prefix n p.entries⟩

namespace BreaksOff

variable {xs ys : List Reply}

theorem entriesIn_prefix (h : BreaksOff xs ys) : entriesIn xs <+: entriesIn ys := by
  induction h with
  | nil => exact List.prefix_rfl
  | @same x xs ys hx _ ih =>
    cases x with
    | part changeset => exact List.prefix_rfl
    | entry e => exact List.cons_prefix_cons.mpr ⟨rfl, ih⟩
    | noMore => exact ih
    | failed f => exact absurd rfl (hx f)
  | fails hxs =>
    rw [entriesIn, entriesIn_of_givesNothing hxs]
    exact List.nil_prefix

theorem partsIn_within (h : BreaksOff xs ys) {i : Nat} {q : PartRead}
    (hq : (partsIn xs)[i]? = some q) : ∃ p, (partsIn ys)[i]? = some p ∧ q.Within p := by
  induction h generalizing i with
  | nil => cases hq
  | @same x xs ys hx hxs ih =>
    cases x with
    | part changeset =>
      cases i with
      | zero =>
        cases hq
        exact ⟨_, rfl, rfl, hxs.entriesIn_prefix⟩
      | succ i => exact ih hq
    | entry e => exact ih hq
    | noMore => exact ih hq
    | failed f => exact absurd rfl (hx f)
  | fails hxs =>
    rw [partsIn, partsIn_of_givesNothing hxs] at hq
    cases hq

/-- A failure is that of the connection, and the end of what is read. -/
theorem of_failed (h : BreaksOff xs ys) {k : Nat} {f : Failure} (hk : xs[k]? = some (.failed f)) :
    f = Broken.failure ∧ ∀ m x, k < m → xs[m]? = some x → x.GivesNothing := by
  induction h generalizing k with
  | nil => cases hk
  | @same y xs ys hy _ ih =>
    cases k with
    | zero =>
      cases hk
      exact absurd rfl (hy f)
    | succ k =>
      obtain ⟨hf, hrest⟩ := ih hk
      refine ⟨hf, ?_⟩
      intro m x hm hx
      obtain ⟨m, rfl⟩ := Nat.exists_eq_add_one_of_ne_zero (Nat.ne_of_gt (Nat.zero_lt_of_lt hm))
      exact hrest m x (Nat.lt_of_succ_lt_succ hm) hx
  | @fails xs ys hxs =>
    have hall : ∀ x ∈ Reply.failed Broken.failure :: xs, x.GivesNothing :=
      List.forall_mem_cons.mpr ⟨.inr rfl, hxs⟩
    refine ⟨?_, fun m x _ hx => hall x (List.mem_of_getElem? hx)⟩
    rcases hall _ (List.mem_of_getElem? hk) with hf | hf
    · cases hf
    · cases hf
      rfl

end BreaksOff

/-! ## The lines that arrive -/

/-- The lines that arrive whole before a stream breaks off are the first lines of the body. -/
theorem linesOf_eq_append (bytes : List UInt8) (n : Nat) :
    ∃ more, linesOf bytes false = linesOf (bytes.take n) true ++ more := by
  obtain ⟨more, hmore⟩ := segments_append_eq_filter 0x0A (bytes.take n) (bytes.drop n)
  rw [List.take_append_drop] at hmore
  refine ⟨more.map Line.ofBytes, ?_⟩
  simp only [linesOf, Bool.false_eq_true, if_false, if_true]
  rw [hmore, List.map_append]

theorem mended_start (boundary : String) (bytes : List UInt8) (n : Nat) :
    ∃ more, (Cursor.start boundary (bytes.take n) true).mended more =
      Cursor.start boundary bytes false := by
  obtain ⟨more, hmore⟩ := linesOf_eq_append bytes n
  refine ⟨more, ?_⟩
  unfold Cursor.start Cursor.mended Reader.mended Reader.start
  rw [hmore]

/-- **A stream that breaks off gives nothing that is cut.** Whatever calls are made on a body of
which only the first bytes arrive, and go on being made after failures: every part is the part of
the whole body that has its place there, and its entries are the first entries of that part. A call
that fails does so because of the connection, and no call after it gives anything. -/
theorem within_of_broken (boundary : String) (bytes : List UInt8) :
    ∃ ps r', Reads (.start boundary bytes false) ps r' ∧
      ∀ (n : Nat) (ks : List Call), let log := (Cursor.start boundary (bytes.take n) true).replies ks
        entriesIn log = [] ∧
        (∀ (i : Nat) (q : PartRead), (partsIn log)[i]? = some q →
          ∃ p, ps[i]? = some p ∧ q.Within p) ∧
        ∀ (k : Nat) (f : Failure), log[k]? = some (.failed f) →
          f = .connection .readingParts .broken ∧
            ∀ (m : Nat) (x : Reply), k < m → log[m]? = some x → x.GivesNothing := by
  obtain ⟨ps, r', hreads⟩ := exists_reads (r := .start boundary bytes false) rfl
  refine ⟨ps, r', hreads, ?_⟩
  intro n ks log
  obtain ⟨more, hmended⟩ := mended_start boundary bytes n
  have hbreaks : BreaksOff log ((Cursor.start boundary bytes false).replies ks) := by
    rw [← hmended]
    exact Cursor.breaksOff (c := .start boundary (bytes.take n) true) rfl more ks
  have hahead : Ahead (.start boundary bytes false) [] ps := .between hreads
  obtain ⟨hentries, hparts⟩ := hahead.of_calls ks
  refine ⟨?_, ?_, ?_⟩
  · have hprefix := hbreaks.entriesIn_prefix
    rw [hentries, List.take_nil] at hprefix
    exact List.prefix_nil.mp hprefix
  · intro i q hq
    obtain ⟨p, hp, hwithin⟩ := hbreaks.partsIn_within hq
    rw [hparts, List.getElem?_zipWith_eq_some] at hp
    obtain ⟨p', m, hp', -, rfl⟩ := hp
    exact ⟨p', hp', hwithin.trans (p'.cut_within m)⟩
  · intro k f hk
    exact hbreaks.of_failed hk

end OData.Multipart
