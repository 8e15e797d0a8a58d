import Mathlib.Data.Finset.Insert
import Mathlib.Data.Finset.Erase
import Mathlib.Logic.Function.Basic

/-!
# Who owns the rows of a snapshot

Each row has one crate that owns it, except for the stubs of external symbols: a stub is named by
bindings of possibly many crates, and goes when the last of these does. Its node, its signature and
its static metadata are written by every crate that names it.

A crate's rows lie under its own ids, so a table is taken apart by the crates here. The workspace's
node, which every write puts and none deletes, is left out.

**The stubs are why a crate cannot simply be cut out.** Everything else in a table belongs to one
crate, and rewriting a crate is replacing its part; a stub has no crate, and its record is
overwritten by everybody who names it. So the tables hold what the crates give only if those who
name a stub agree on it, and a record survives the deletion of a crate exactly if another crate
still names the stub (`Recorded`).

Tables are compared as functions and finite maps, so "the same tables" is an equation
(`Holds.unique`), and a sequence of deletions and rewrites may be compared with one full write.
-/

namespace RustCodeMcp.Graph

variable {Name Stub Row Value : Type*}

/-- What the tables have under a stub. -/
structure StubRecord (Value : Type*) where
  node : Value
  signature : Option Value
  staticMetadata : Option Value

/-- Put over what was there: where there is nothing to put, the old row stays. -/
def StubRecord.over (new : StubRecord Value) (old : Option (StubRecord Value)) :
    StubRecord Value where
  node := new.node
  signature := new.signature <|> old.bind StubRecord.signature
  staticMetadata := new.staticMetadata <|> old.bind StubRecord.staticMetadata

/-- The part of an extraction model that one crate writes. -/
structure Extracted (Stub Row Value : Type*) where
  rows : List Row
  /-- The stubs that its bindings name. -/
  stubs : List (Stub × StubRecord Value)

/-- Nothing was extracted. -/
def Extracted.empty : Extracted Stub Row Value where
  rows := []
  stubs := []

/-- The stubs that the crate names. -/
def Extracted.names (e : Extracted Stub Row Value) : List Stub :=
  e.stubs.map Prod.fst

/-- The rows of each crate, the stubs with their records, and who names them. -/
structure Tables (Name Stub Row Value : Type*) where
  /-- `owned_rows_by_crate`, with the rows it lists. -/
  rows : Name → List Row
  stubOwners : Stub → Finset Name
  stubs : Stub → Option (StubRecord Value)

namespace Tables

/-- No crate has been written. -/
def empty : Tables Name Stub Row Value where
  rows _ := []
  stubOwners _ := ∅
  stubs _ := none

variable [DecidableEq Name] [DecidableEq Stub]

/-- Delete the rows that the crate owns, and the stubs that no other crate names. -/
def deleteCrateRows (t : Tables Name Stub Row Value) (krate : Name) :
    Tables Name Stub Row Value where
  rows := Function.update t.rows krate []
  stubOwners stub := (t.stubOwners stub).erase krate
  stubs stub :=
    if krate ∈ t.stubOwners stub ∧ (t.stubOwners stub).erase krate = ∅ then none else t.stubs stub

/-- What a crate gives is put into the tables. -/
def writeOwnedRows (t : Tables Name Stub Row Value) (krate : Name)
    (model : Extracted Stub Row Value) : Tables Name Stub Row Value where
  rows := Function.update t.rows krate (t.rows krate ++ model.rows)
  stubOwners stub := if stub ∈ model.names then insert krate (t.stubOwners stub)
    else t.stubOwners stub
  stubs stub :=
    match model.stubs.lookup stub with
    | some record => some (record.over (t.stubs stub))
    | none => t.stubs stub

/-- One group of `write_by_crate`. -/
def rewrite (t : Tables Name Stub Row Value) (krate : Name) (model : Extracted Stub Row Value) :
    Tables Name Stub Row Value :=
  (t.deleteCrateRows krate).writeOwnedRows krate model

/-- Group after group. -/
def writeByCrate (t : Tables Name Stub Row Value) (models : Name → Extracted Stub Row Value)
    (dirty : List Name) : Tables Name Stub Row Value :=
  dirty.foldl (fun t krate ↦ t.rewrite krate (models krate)) t

/-! ### What is written -/

variable {t t' : Tables Name Stub Row Value} {models : Name → Extracted Stub Row Value}
    {dirty : List Name}
  {krate : Name} {stub : Stub} {record : Stub → StubRecord Value}

theorem rows_rewrite (model : Extracted Stub Row Value) (other : Name) :
    (t.rewrite krate model).rows other = if other = krate then model.rows else t.rows other := by
  show Function.update (Function.update t.rows krate []) krate
    (Function.update t.rows krate [] krate ++ model.rows) other = _
  rw [Function.update_idem, Function.update_self, List.nil_append, Function.update_apply]

theorem mem_stubOwners_rewrite (model : Extracted Stub Row Value) (other : Name) :
    other ∈ (t.rewrite krate model).stubOwners stub ↔
      if other = krate then stub ∈ model.names else other ∈ t.stubOwners stub := by
  show other ∈ (if stub ∈ model.names then insert krate ((t.stubOwners stub).erase krate)
    else (t.stubOwners stub).erase krate) ↔ _
  by_cases hother : other = krate
  · subst hother
    by_cases hstub : stub ∈ model.names <;> simp [hstub]
  · by_cases hstub : stub ∈ model.names <;> simp [hstub, hother]

/-- Every crate that is written has its new rows, every other its old ones. -/
theorem rows_writeByCrate (other : Name) :
    (t.writeByCrate models dirty).rows other =
      if other ∈ dirty then (models other).rows else t.rows other := by
  induction dirty generalizing t with
  | nil => exact (if_neg List.not_mem_nil).symm
  | cons krate dirty ih =>
    refine (ih (t := t.rewrite krate (models krate))).trans ?_
    rw [rows_rewrite]
    by_cases hmem : other ∈ dirty
    · rw [if_pos hmem, if_pos (List.mem_cons_of_mem _ hmem)]
    · rw [if_neg hmem]
      by_cases heq : other = krate
      · subst heq
        rw [if_pos rfl, if_pos List.mem_cons_self]
      · rw [if_neg heq, if_neg fun h ↦ (List.mem_cons.1 h).elim heq hmem]

theorem mem_stubOwners_writeByCrate (other : Name) :
    other ∈ (t.writeByCrate models dirty).stubOwners stub ↔
      if other ∈ dirty then stub ∈ (models other).names else other ∈ t.stubOwners stub := by
  induction dirty generalizing t with
  | nil => exact (iff_of_eq (if_neg List.not_mem_nil)).symm
  | cons krate dirty ih =>
    refine (ih (t := t.rewrite krate (models krate))).trans ?_
    rw [mem_stubOwners_rewrite]
    by_cases hmem : other ∈ dirty
    · rw [if_pos hmem, if_pos (List.mem_cons_of_mem _ hmem)]
    · rw [if_neg hmem]
      by_cases heq : other = krate
      · subst heq
        rw [if_pos rfl, if_pos List.mem_cons_self]
      · rw [if_neg heq, if_neg fun h ↦ (List.mem_cons.1 h).elim heq hmem]

/-! ### The stubs -/

/-- A stub has its record as long as somebody names it. -/
def Recorded (t : Tables Name Stub Row Value) (record : Stub → StubRecord Value) : Prop :=
  ∀ stub, t.stubs stub = if t.stubOwners stub = ∅ then none else some (record stub)

omit [DecidableEq Stub] in
theorem recorded_empty : (empty : Tables Name Stub Row Value).Recorded record :=
  fun _ ↦ (if_pos rfl).symm

theorem over_self (r : StubRecord Value) (old : Option (StubRecord Value))
    (hold : old = none ∨ old = some r) : r.over old = r := by
  obtain rfl | rfl := hold
  · obtain ⟨node, signature, staticMetadata⟩ := r
    cases signature <;> cases staticMetadata <;> rfl
  · obtain ⟨node, signature, staticMetadata⟩ := r
    cases signature <;> cases staticMetadata <;> rfl

omit [DecidableEq Stub] in
/-- A deletion keeps the records of stubs that somebody else names. -/
theorem Recorded.deleteCrateRows (h : t.Recorded record) (krate : Name) :
    (t.deleteCrateRows krate).Recorded record := by
  intro stub
  show (if krate ∈ t.stubOwners stub ∧
    (t.stubOwners stub).erase krate = ∅ then none else t.stubs stub) =
    if (t.stubOwners stub).erase krate = ∅ then none else some (record stub)
  by_cases hlast : (t.stubOwners stub).erase krate = ∅
  · rw [if_pos hlast]
    by_cases hmem : krate ∈ t.stubOwners stub
    · exact if_pos ⟨hmem, hlast⟩
    · rw [if_neg fun hand ↦ hmem hand.1, h stub]
      rw [Finset.erase_eq_of_notMem hmem] at hlast
      exact if_pos hlast
  · have hne : t.stubOwners stub ≠ ∅ := by
      intro hempty
      rw [hempty] at hlast
      exact hlast rfl
    rw [if_neg fun hand ↦ hlast hand.2, if_neg hlast, h stub, if_neg hne]

/-- A write puts the records of what it names. -/
theorem Recorded.writeOwnedRows (h : t.Recorded record) {model : Extracted Stub Row Value}
    (hmodel : ∀ stub r, (stub, r) ∈ model.stubs → r = record stub) (krate : Name) :
    (t.writeOwnedRows krate model).Recorded record := by
  intro stub
  show (match model.stubs.lookup stub with
    | some r => some (r.over (t.stubs stub))
    | none => t.stubs stub) =
    if (if stub ∈ model.names then insert krate (t.stubOwners stub)
      else t.stubOwners stub) = ∅ then none
    else some (record stub)
  rcases hlookup : model.stubs.lookup stub with - | r
  · have hmem : stub ∉ model.names := by
      intro hmem
      obtain ⟨⟨stub', r⟩, hin, rfl⟩ := List.mem_map.1 hmem
      exact absurd rfl (bne_iff_ne.1 (List.lookup_eq_none_iff.1 hlookup _ hin))
    rw [if_neg hmem]
    exact h stub
  · have hin : (stub, r) ∈ model.stubs := by
      obtain ⟨l₁, l₂, heq, -⟩ := List.lookup_eq_some_iff.1 hlookup
      rw [heq]
      exact List.mem_append_right _ List.mem_cons_self
    have hmem : stub ∈ model.names := List.mem_map_of_mem hin
    obtain rfl := hmodel stub r hin
    rw [if_pos hmem, if_neg (Finset.insert_ne_empty _ _)]
    refine congrArg some (over_self _ _ ?_)
    rw [h stub]
    split_ifs
    · exact .inl rfl
    · exact .inr rfl

theorem Recorded.writeByCrate (h : t.Recorded record)
    (hmodels : ∀ krate ∈ dirty, ∀ stub r, (stub, r) ∈ (models krate).stubs → r = record stub) :
    (t.writeByCrate models dirty).Recorded record := by
  induction dirty generalizing t with
  | nil => exact h
  | cons krate dirty ih =>
    refine ih ((h.deleteCrateRows krate).writeOwnedRows (hmodels krate List.mem_cons_self) krate) ?_
    exact fun other hother ↦ hmodels other (List.mem_cons_of_mem _ hother)

/-- **The tables hold what the crates give**, whatever the order they were written in. -/
structure Holds (t : Tables Name Stub Row Value) (models : Name → Extracted Stub Row Value)
    (crates : List Name) (record : Stub → StubRecord Value) : Prop where
  rows : ∀ krate, t.rows krate = if krate ∈ crates then (models krate).rows else []
  stubOwners : ∀ stub krate, krate ∈ t.stubOwners stub ↔ krate ∈ crates ∧
    stub ∈ (models krate).names
  stubs : t.Recorded record

omit [DecidableEq Stub] in
/-- There is one way to hold what the crates give. -/
theorem Holds.unique {crates : List Name} (h : t.Holds models crates record)
    (h' : t'.Holds models crates record) : t = t' := by
  have hrows : t.rows = t'.rows := funext fun krate ↦ (h.rows krate).trans (h'.rows krate).symm
  have howners : t.stubOwners = t'.stubOwners := funext fun stub ↦ Finset.ext fun krate ↦
    (h.stubOwners stub krate).trans (h'.stubOwners stub krate).symm
  have hstubs : t.stubs = t'.stubs := funext fun stub ↦ by
    rw [h.stubs stub, h'.stubs stub, howners]
  obtain ⟨rows, stubOwners, stubs⟩ := t
  obtain ⟨rows', stubOwners', stubs'⟩ := t'
  obtain rfl : rows = rows' := hrows
  obtain rfl : stubOwners = stubOwners' := howners
  obtain rfl : stubs = stubs' := hstubs
  rfl

omit [DecidableEq Stub] in
theorem Holds.of_mem_iff {crates crates' : List Name} (h : t.Holds models crates record)
    (hmem : ∀ krate, krate ∈ crates' ↔ krate ∈ crates) : t.Holds models crates' record :=
  ⟨fun krate ↦ (h.rows krate).trans (if_congr (hmem krate).symm rfl rfl),
    fun stub krate ↦ (h.stubOwners stub krate).trans (and_congr_left' (hmem krate).symm), h.stubs⟩

/-- Some crates are written again, the others have not changed. -/
theorem Holds.writeByCrate {crates : List Name} {models' : Name → Extracted Stub Row Value}
    (h : t.Holds models' crates record) (hdirty : dirty ⊆ crates)
    (hclean : ∀ krate ∈ crates, krate ∉ dirty → models krate = models' krate)
    (hmodels : ∀ krate ∈ dirty, ∀ stub r, (stub, r) ∈ (models krate).stubs → r = record stub) :
    (t.writeByCrate models dirty).Holds models crates record := by
  refine ⟨fun krate ↦ ?_, fun stub krate ↦ ?_, h.stubs.writeByCrate hmodels⟩
  · rw [rows_writeByCrate]
    by_cases hmem : krate ∈ dirty
    · rw [if_pos hmem, if_pos (hdirty hmem)]
    · rw [if_neg hmem, h.rows]
      split_ifs with hin
      · rw [hclean krate hin hmem]
      · rfl
  · rw [mem_stubOwners_writeByCrate]
    by_cases hmem : krate ∈ dirty
    · rw [if_pos hmem]
      exact (and_iff_right (hdirty hmem)).symm
    · rw [if_neg hmem, h.stubOwners]
      exact and_congr_right fun hin ↦ by rw [hclean krate hin hmem]

/-- A full build. -/
theorem holds_writeByCrate_empty
    (hmodels : ∀ krate ∈ dirty, ∀ stub r, (stub, r) ∈ (models krate).stubs → r = record stub) :
    ((empty : Tables Name Stub Row Value).writeByCrate models dirty).Holds models dirty record := by
  refine ⟨fun krate ↦ rows_writeByCrate krate, fun stub krate ↦
    ?_, recorded_empty.writeByCrate hmodels⟩
  rw [mem_stubOwners_writeByCrate]
  by_cases hmem : krate ∈ dirty
  · rw [if_pos hmem]
    exact (and_iff_right hmem).symm
  · rw [if_neg hmem]
    exact ⟨fun h ↦ absurd h (Finset.notMem_empty _), fun h ↦ absurd h.1 hmem⟩

end Tables

end RustCodeMcp.Graph
