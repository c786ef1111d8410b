import OData.Proofs.Multipart.Reading

/-!
# Walks without bounds

`Reads r ps r'` says that asking the reader `r` for parts until there are no more, and each part for
entries until there are no more, gives `ps` and leaves `r'`. It mentions no bound on the number of
steps. **The bounds in `Reader.collect` are never reached** (`collect_of_reads`): a walk has at most
one part for every line, and a changeset at most as many entries as its reader has in stock.
-/

set_option autoImplicit false

namespace OData.Multipart

open Reading

/-- A part as it was read: whether it is a changeset, and its entries. -/
structure PartRead where
  changeset : Bool
  entries : List Entry
  deriving DecidableEq, Repr

/-- All entries of a part, and the reader after them. -/
inductive Takes : Reader → Part → List Entry → Reader → Prop where
  | nil {r r' : Reader} {p p' : Part} : on r p.next = (.ok (none, p'), r') → Takes r p [] r'
  | cons {r r' r'' : Reader} {p p' : Part} {e : Entry} {es : List Entry} :
      on r p.next = (.ok (some e, p'), r') → Takes r' p' es r'' → Takes r p (e :: es) r''

/-- All parts with all their entries, and the reader after them. -/
inductive Reads : Reader → List PartRead → Reader → Prop where
  | nil {r r' : Reader} : on r nextPart = (.ok none, r') → Reads r [] r'
  | cons {r r' r'' r₃ : Reader} {p : Part} {es : List Entry} {ps : List PartRead} :
      on r nextPart = (.ok (some p), r') → Takes r' p es r'' → Reads r'' ps r₃ →
        Reads r (⟨p.isChangeset, es⟩ :: ps) r₃

/-- A walk begins with its first part, so readers that give the same one have the same walks. -/
theorem Reads.of_on_eq {r s r' : Reader} {ps : List PartRead} (h : Reads s ps r')
    (hs : on r nextPart = on s nextPart) : Reads r ps r' := by
  cases h with
  | nil h => exact .nil (hs.trans h)
  | cons h ht hr => exact .cons (hs.trans h) ht hr

/-! ## Entries of a part -/

theorem on_next_single (r : Reader) (e : Option Entry) :
    on r (Part.single e).next = (.ok (e, .single none), r) := rfl

theorem on_next_changeset {r r' : Reader} {e : Option Entry}
    (h : on r nextInChangeset = (.ok e, r')) :
    on r Part.changeset.next = (.ok (e, .changeset), r') := by
  show on r (nextInChangeset >>= fun e => pure (e, Part.changeset)) = _
  rw [on_bind_ok h, on_pure]

/-- A part of its own has its one entry to give, and takes nothing from the reader. -/
theorem takes_single (r : Reader) (e : Entry) : Takes r (.single (some e)) [e] r :=
  .cons (on_next_single r (some e)) (.nil (on_next_single r none))

/-- A changeset gives what the reader gives, and it remains the part in hand. -/
theorem on_next_changeset_eq_ok {r r' : Reader} {p' : Part} {e : Option Entry}
    (h : on r Part.changeset.next = (.ok (e, p'), r')) :
    p' = .changeset ∧ on r nextInChangeset = (.ok e, r') := by
  obtain ⟨e', r₁, h₁, h⟩ := on_bind_eq_ok (f := fun e => pure (e, Part.changeset)) h
  cases h
  exact ⟨rfl, h₁⟩

/-- There is no other way to take the entry of a part of its own. -/
theorem Takes.single_eq {r r' : Reader} {e : Option Entry} {es : List Entry}
    (h : Takes r (.single e) es r') : es = e.toList ∧ r' = r := by
  cases h with
  | nil h =>
    cases h
    exact ⟨rfl, rfl⟩
  | cons h ht =>
    cases h
    cases ht with
    | nil h =>
      cases h
      exact ⟨rfl, rfl⟩
    | cons h _ => cases h

/-- Reading the entries of a part puts no lines back, and a changeset has no more of them than
the reader has in stock. -/
theorem Takes.changeset_length {r r' : Reader} {es : List Entry}
    (h : Takes r .changeset es r') :
    r'.lines.length ≤ r.lines.length ∧ es.length ≤ stock r := by
  -- The part is a changeset all the way, which the induction has to be told.
  generalize hp : Part.changeset = p at h
  induction h with
  | @nil r r' p p' h =>
    subst hp
    have hle := (orderly_nextInChangeset.onward r).lines
    rw [(on_next_changeset_eq_ok h).2] at hle
    exact ⟨hle, Nat.zero_le _⟩
  | @cons r r' r'' p p' e es h _ ih =>
    subst hp
    obtain ⟨rfl, hn⟩ := on_next_changeset_eq_ok h
    obtain ⟨hle', hes⟩ := ih rfl
    have hle := (orderly_nextInChangeset.onward r).lines
    rw [hn] at hle
    refine ⟨Nat.le_trans hle' hle, ?_⟩
    rw [List.length_cons]
    exact Nat.lt_of_le_of_lt hes (stock_nextInChangeset hn)

/-- Reading the entries of a part of either kind puts no lines back, and they are fewer than the
bound for them. -/
theorem Takes.length {r r' : Reader} {p : Part} {es : List Entry} (h : Takes r p es r') :
    r'.lines.length ≤ r.lines.length ∧ es.length < r.entryBound := by
  unfold Reader.entryBound
  cases p with
  | single e =>
    obtain ⟨rfl, rfl⟩ := h.single_eq
    refine ⟨Nat.le_refl _, ?_⟩
    cases e <;> simp
  | changeset =>
    obtain ⟨hle, hes⟩ := h.changeset_length
    have hstock : stock r ≤ r.lines.length + 1 := by
      unfold stock
      split <;> omega
    exact ⟨hle, by omega⟩

/-! ## The bounds -/

theorem run_take_succ (p : Part) (n : Nat) (r : Reader) :
    (p.take (n + 1)).run r =
      match on r p.next with
      | (.error _, r') => (([], .broken), r')
      | (.ok (none, _), r') => (([], .noMore), r')
      | (.ok (some e, p'), r') =>
        ((e :: ((p'.take n).run r').1.1, ((p'.take n).run r').1.2), ((p'.take n).run r').2) := by
  rw [Part.take, StateT.run_bind]
  unfold on
  rcases (p.next.run).run r with ⟨_ | ⟨_ | e, p'⟩, r'⟩ <;> rfl

/-- With room for one more than there are, all entries are taken and no more are found. -/
theorem Takes.take_eq {r r' : Reader} {p : Part} {es : List Entry} (h : Takes r p es r') {n : Nat}
    (hn : es.length < n) : (p.take n).run r = ((es, .noMore), r') := by
  induction h generalizing n with
  | nil h =>
    obtain ⟨n, rfl⟩ := Nat.exists_eq_add_one_of_ne_zero (Nat.ne_of_gt hn)
    rw [run_take_succ, h]
  | cons h _ ih =>
    obtain ⟨n, rfl⟩ := Nat.exists_eq_add_one_of_ne_zero (Nat.ne_of_gt (Nat.zero_lt_of_lt hn))
    rw [run_take_succ, h]
    dsimp only
    rw [ih (Nat.lt_of_succ_lt_succ hn)]

theorem run_walk_succ (n : Nat) (r : Reader) :
    (walk (n + 1)).run r =
      match on r nextPart with
      | (.error _, r') => (⟨[], true⟩, r')
      | (.ok none, r') => (⟨[], false⟩, r')
      | (.ok (some p), r') =>
        match (p.take r'.entryBound).run r' with
        | ((es, ending), r'') =>
          if ending == .broken then (⟨[es], true⟩, r'')
          else
            ({ ((walk n).run r'').1 with parts := es :: ((walk n).run r'').1.parts },
              ((walk n).run r'').2) := by
  rw [walk, StateT.run_bind]
  unfold on
  rcases (nextPart.run).run r with ⟨_ | _ | p, r'⟩
  · rfl
  · rfl
  · dsimp only [bind, StateT.bind, StateT.run]
    cases ht : p.take r'.entryBound r' with
    | mk taken r'' =>
      obtain ⟨es, ending⟩ := taken
      simp only [get, getThe, MonadStateOf.get, StateT.get, pure, ht]
      cases ending <;> rfl

/-- Every part takes up a line, so there are not more parts than lines. -/
theorem Reads.length {r r' : Reader} {ps : List PartRead} (h : Reads r ps r') :
    ps.length ≤ r.lines.length := by
  induction h with
  | nil _ => simp
  | cons h ht _ ih =>
    have hlt := length_nextPart h
    have hle := ht.length.1
    rw [List.length_cons]
    omega

/-- With room for one more than there are, all parts are found. -/
theorem Reads.walk_eq {r r' : Reader} {ps : List PartRead} (h : Reads r ps r') {n : Nat}
    (hn : ps.length < n) : (walk n).run r = (⟨ps.map PartRead.entries, false⟩, r') := by
  induction h generalizing n with
  | nil h =>
    obtain ⟨n, rfl⟩ := Nat.exists_eq_add_one_of_ne_zero (Nat.ne_of_gt hn)
    rw [run_walk_succ, h]
    rfl
  | cons h ht _ ih =>
    obtain ⟨n, rfl⟩ := Nat.exists_eq_add_one_of_ne_zero (Nat.ne_of_gt (Nat.zero_lt_of_lt hn))
    rw [run_walk_succ, h]
    dsimp only
    rw [ht.take_eq ht.length.2]
    dsimp only
    rw [if_neg (by decide), ih (Nat.lt_of_succ_lt_succ hn)]
    rfl

/-- The bounds that the reader sets itself are such. -/
theorem walkAll_of_reads {r r' : Reader} {ps : List PartRead} (h : Reads r ps r') :
    r.walkAll = (⟨ps.map PartRead.entries, false⟩, r') :=
  h.walk_eq (Nat.lt_succ_of_le h.length)

/-- **What a walk without bounds gives is what is collected.** -/
theorem collect_of_reads {r r' : Reader} {ps : List PartRead} (h : Reads r ps r') :
    r.collect = .ok (ps.map PartRead.entries) := by
  unfold Reader.collect
  rw [walkAll_of_reads h]
  rfl

end OData.Multipart
