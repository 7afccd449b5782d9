import SquidDB.Core.SkipListStructure
import SquidDB.Engine.RowOwnership

/-!
# Keys and row contents

`insertRow` reads the key from the row, `updateRow` takes the key and the row
as separate arguments and does not compare them.  Rows carry the key they are
stored under as long as no update of a stored key brings a row with another
one, and they are not freed as long as no call brings a buffer that the update
would free, or that the table has freed.
-/

namespace SquidDB.Engine

open Checked SquidDB.Core SquidDB.Storage Ledger

/-! ## Schemas and rows -/

/-- The columns have one primary key, a 32-bit integer. -/
def SinglePrimary (columns : List Column) : Prop :=
  ∃ before column after, columns = before ++ column :: after ∧
    column.keyType = .primary ∧ column.columnType = .int32 ∧
    column.size = 4 ∧ ∀ c ∈ before ++ after, c.keyType ≠ .primary

theorem SinglePrimary.offset_le {columns : List Column}
    (hprimary : SinglePrimary columns)
    (hsize : Schema.sizeSum columns < 2 ^ 16) :
    (Schema.ofColumns columns).getPrimaryOffset + 4 ≤
      (Schema.ofColumns columns).getTotalSize := by
  obtain ⟨before, column, after, rfl, hkey, -, hfour, hothers⟩ := hprimary
  have hafter : ∀ c ∈ after, c.keyType ≠ .primary :=
    fun c hc => hothers c (List.mem_append_right _ hc)
  rw [Schema.sizeSum_append, Schema.sizeSum_cons, hfour] at hsize
  rw [Schema.getPrimaryOffset, Schema.primaryOffset_ofColumns hkey hafter,
    Schema.getTotalSize, Schema.totalSize_ofColumns, Schema.sizeSum_append,
    Schema.sizeSum_cons, hfour, Nat.mod_eq_of_lt (by omega),
    Nat.mod_eq_of_lt (by omega)]
  omega

/-- A row call whose row has the size of the schema. -/
def TableCall.Fits (schema : Schema) : TableCall → Prop
  | .insertRow row _ | .updateRow _ row =>
      row.bytes.length = schema.getTotalSize
  | .deleteRow _ => True
  | .beginTransaction | .commit | .rollback => False

/-- A row that fits has a key. -/
theorem TableCall.Fits.operation {schema : Schema} {call : TableCall}
    (hfits : call.Fits schema)
    (hoffset : schema.getPrimaryOffset + 4 ≤ schema.getTotalSize) :
    (call.operation schema).isSome := by
  cases call with
  | insertRow row draw =>
      have hlen : row.bytes.length = schema.getTotalSize := hfits
      obtain ⟨key, hkey⟩ := RowBuffer.exists_readInt32 (hlen ▸ hoffset)
      simp [TableCall.operation, hkey, Except.toOption]
  | updateRow key row => rfl
  | deleteRow key => rfl
  | beginTransaction => exact hfits.elim
  | commit => exact hfits.elim
  | rollback => exact hfits.elim

/-! ## Rows that carry their key -/

/-- The data are a row with the key at the offset. -/
def CarriesKey (offset : ℕ) (key : Int32) (data : Option RowBuffer) : Prop :=
  ∃ row, data = some row ∧ row.readInt32 offset = .ok key

/-- Every row the map binds carries its key. -/
def Keyed (offset : ℕ) (m : SortedMap Int32 (RowData RowBuffer)) : Prop :=
  ∀ b ∈ m.entries, CarriesKey offset b.1 b.2.data

namespace Keyed

variable {offset : ℕ} {m : SortedMap Int32 (RowData RowBuffer)}

theorem empty : Keyed offset SortedMap.empty := by
  simp [Keyed]

/-- A call keeps the keys, unless it updates a stored key with a row that
carries another one. -/
theorem mapStep {table : Table}
    (hm : Keyed table.schema.getPrimaryOffset m) {call : TableCall}
    (hkeeps : ∀ key row, call = .updateRow key row →
      (m.lookup key).isSome →
      row.readInt32 table.schema.getPrimaryOffset = .ok key) :
    Keyed table.schema.getPrimaryOffset (System.mapStep table m call) := by
  intro b hb
  rcases System.mem_mapStep hb with hb | ⟨c, hc, hbinding, hreturns⟩
  · exact hm b hb
  cases call with
  | insertRow row draw =>
      obtain ⟨key, hkey, rfl⟩ := Option.map_eq_some_iff.mp hc
      obtain rfl := Option.some.inj hbinding
      exact ⟨row, rfl, eq_ok_of_toOption hkey⟩
  | updateRow key row =>
      obtain rfl := Option.some.inj hc
      obtain rfl := Option.some.inj hbinding
      refine ⟨row, rfl, hkeeps key row rfl ?_⟩
      by_contra hnone
      simp [mapCall, hnone] at hreturns
  | deleteRow key => cases hc; cases hbinding
  | beginTransaction => cases hc
  | commit => cases hc
  | rollback => cases hc

end Keyed

namespace System

variable {s : System} {m : SortedMap Int32 (RowData RowBuffer)}

/-- The data are a row that was not freed and carries the key. -/
def Intact (s : System) (key : Int32) (data : Option RowBuffer) : Prop :=
  ∃ row, data = some row ∧ ¬s.Freed row.address ∧
    row.readInt32 s.table.schema.getPrimaryOffset = .ok key

/-- Every node of the index, and every row of a scan, carries the key it is
found under in memory that was not freed, and no two rows carry the same
key. -/
structure KeysAgree (s : System) : Prop where
  nodes : ∀ sl head nodes a n, s.table.primary = some sl →
    sl.head = some head →
    Chain sl.heap 0 (sl.heap.next head 0) nodes → a ∈ nodes →
    sl.heap.node a = some n →
    ∃ r info, n.rowInfo = some r ∧ sl.heap.rowInfo r = some info ∧
      s.Intact n.key info.data
  scan : ∃ rows, s.Scans rows ∧
    (∀ b ∈ rows, s.Intact b.1 b.2) ∧
    (rows.map fun b => b.2.map fun row =>
      row.readInt32 s.table.schema.getPrimaryOffset).Nodup
  rangeScan : ∀ ndebug how startKey endKey rows sl,
    s.rangeScan ndebug how startKey endKey = .ok (.returned rows sl) →
    ∀ b ∈ rows, s.Intact b.1 b.2

theorem Holds.exists_binding (hs : s.Holds m) {sl : PrimaryIndex}
    {head a : NodeRef} {nodes : List NodeRef} {n : SkipListNode Int32}
    (hprimary : s.table.primary = some sl) (hhead : sl.head = some head)
    (hchain : Chain sl.heap 0 (sl.heap.next head 0) nodes) (ha : a ∈ nodes)
    (hn : sl.heap.node a = some n) :
    ∃ r info, n.rowInfo = some r ∧ sl.heap.rowInfo r = some info ∧
      (n.key, (⟨info.data, info.size⟩ : RowData RowBuffer)) ∈ m.entries := by
  obtain ⟨-, sl', hprimary', head', spine, wf, hcontents, -⟩ := hs
  rw [hprimary, Option.some.injEq] at hprimary'
  subst hprimary'
  rw [wf.headRef, Option.some.injEq] at hhead
  subst hhead
  rw [hchain.unique wf.chain_bottom] at ha
  obtain ⟨e, he, rfl⟩ := List.mem_map.mp ha
  rw [wf.threaded.live (List.mem_cons_of_mem _ he), Option.some.injEq] at hn
  subst hn
  obtain ⟨r, info, hr, hinfo, -⟩ := wf.rows.exists_row he
  have hmem : (e.key, sl.heap.dataOf e.node) ∈ m.entries :=
    hcontents ▸ List.mem_map_of_mem he
  rw [dataOf_of_rowInfo hr hinfo] at hmem
  exact ⟨r, info, hr, hinfo, hmem⟩

theorem nodup_keys {offset : ℕ} (hm : Keyed offset m) :
    ((rowsOf m.entries).map fun b => b.2.map fun row =>
      row.readInt32 offset).Nodup := by
  have hmap : ((rowsOf m.entries).map fun b => b.2.map fun row =>
      row.readInt32 offset) =
      m.entries.map fun b => some (.ok b.1) := by
    rw [rowsOf, List.map_map]
    apply List.map_congr_left
    intro b hb
    obtain ⟨row, hrow, hkey⟩ := hm b hb
    simp [hrow, hkey]
  rw [hmap]
  refine List.Pairwise.map _ ?_ m.sorted
  intro a b hlt heq
  simp only [Option.some.injEq, Except.ok.injEq] at heq
  exact absurd heq hlt.ne

theorem Holds.keysAgree (hs : s.Holds m)
    (hm : Keyed s.table.schema.getPrimaryOffset m)
    (hintact : ∀ b ∈ m.entries, s.Intact b.1 b.2.data) : s.KeysAgree where
  nodes := by
    intro sl head nodes a n hprimary hhead hchain ha hn
    obtain ⟨r, info, hr, hinfo, hmem⟩ :=
      hs.exists_binding hprimary hhead hchain ha hn
    exact ⟨r, info, hr, hinfo, hintact _ hmem⟩
  scan := by
    refine ⟨_, hs.scans, fun row hrow => ?_, nodup_keys hm⟩
    obtain ⟨b, hb, rfl⟩ := List.mem_map.mp hrow
    exact hintact b hb
  rangeScan := by
    intro ndebug how startKey endKey rows sl hrun row hrow
    obtain ⟨-, sl', hprimary, hrep⟩ := hs
    rw [rangeScan, hprimary, nonNull_some, ok_bind,
      hrep.rangeScan_spec] at hrun
    split at hrun
    · obtain ⟨rfl, rfl⟩ := Outcome.returned.inj (Except.ok.inj hrun)
      obtain ⟨b, hb, rfl⟩ := List.mem_map.mp hrow
      exact hintact b (List.mem_of_mem_filter hb)
    · cases hrun

/-! ## Runs -/

/-- The row is stored under the key. -/
def Stores (s : System) (key : Int32) (row : RowBuffer) : Prop :=
  ∃ sl r info, s.table.primary = some sl ∧ sl.Attached key r ∧
    sl.heap.rowInfo r = some info ∧ info.data = some row

theorem Holds.stores (hs : s.Holds m) {key : Int32}
    {data : RowData RowBuffer} (hmem : (key, data) ∈ m.entries)
    {row : RowBuffer} (hrow : data.data = some row) : s.Stores key row := by
  obtain ⟨-, sl, hprimary, head, spine, wf, hm, -⟩ := hs
  rw [← hm] at hmem
  obtain ⟨e, he, heq⟩ := List.mem_map.mp hmem
  obtain ⟨rfl, rfl⟩ := Prod.mk.inj heq
  obtain ⟨r, info, hr, hinfo, -⟩ := wf.rows.exists_row he
  rw [dataOf_of_rowInfo hr hinfo] at hrow
  exact ⟨sl, r, info, hprimary, wf.attached_iff.mpr ⟨e, he, rfl, hr⟩, hinfo,
    hrow⟩

/-- An update of a stored key brings a row that carries this key, in another
buffer than the stored one, and no call brings a buffer that was freed. -/
structure KeepsKey (s : System) (e : ThreadId × TableCall) : Prop where
  update : ∀ key row stored, e.2 = .updateRow key row → s.Stores key stored →
    row.readInt32 s.table.schema.getPrimaryOffset = .ok key ∧
      row.address ≠ stored.address
  alive : ∀ row, e.2.row = some row → ¬s.Freed row.address

/-- The caller does not modify the rows it has passed. -/
def Unmodified (events : List (ThreadId × TableCall)) : Prop :=
  ∀ e ∈ events, ∀ e' ∈ events, ∀ row row', e.2.row = some row →
    e'.2.row = some row' → row.address = row'.address → row = row'

/-- What is true in a run that keeps the stored keys: the rows carry their
keys, and each buffer was handed to the index once. -/
structure Orderly (start : Table) (events : List (ThreadId × TableCall))
    (s : System) (m : SortedMap Int32 (RowData RowBuffer))
    (received : List RowBuffer) : Prop extends Serves start s m where
  keyed : Keyed start.schema.getPrimaryOffset m
  booked : s.Booked received
  nodup : received.Nodup
  passed : ∀ row ∈ received, ∃ e ∈ events, e.2.row = some row

namespace Orderly

variable {start : Table} {events : List (ThreadId × TableCall)}
  {received : List RowBuffer} {t : ThreadId} {o : Outcome System Bool}

theorem schema (h : Orderly start events s m received) :
    s.table.schema = start.schema := by
  rw [h.table]

theorem stored_or_freed (h : Orderly start events s m received)
    {row : RowBuffer} (hrow : row ∈ received) :
    s.Freed row.address ∨ ∃ key, s.Stores key row ∧
      (m.lookup key).isSome ∧
      row.readInt32 start.schema.getPrimaryOffset = .ok key := by
  obtain ⟨sl, hprimary, hbalanced⟩ := h.booked.balanced h.holds
  rcases List.mem_append.mp (hbalanced.mem_iff.mp hrow) with hheld | hfreed
  · obtain ⟨b, hb, hdata⟩ := mem_buffers.mp hheld
    obtain ⟨row', hdata', hkey⟩ := h.keyed b hb
    obtain rfl := Option.some.inj (hdata.symm.trans hdata')
    refine .inr ⟨b.1, h.holds.stores hb hdata, ?_, hkey⟩
    rw [SortedMap.lookup_eq_some_iff.mpr hb, Option.isSome_some]
  · exact .inl ⟨sl, hprimary, row, hfreed, rfl⟩

/-- A call that keeps the stored keys hands over a buffer that was not handed
over before. -/
theorem handedOver_notMem (h : Orderly start events s m received)
    {call : TableCall} (hkeeps : s.KeepsKey (t, call))
    (hcalled : Called s m t call o) :
    ∀ row ∈ call.handedOver o.result, row ∉ received := by
  intro row hhanded hreceived
  rw [TableCall.handedOver] at hhanded
  split at hhanded
  · next hresult =>
    have hrow : call.row = some row := by simpa using hhanded
    rcases h.stored_or_freed hreceived with
      hfreed | ⟨key, hstores, hbound, hkey⟩
    · exact hkeeps.alive row hrow hfreed
    rw [← h.schema] at hkey
    cases hcalled with
    | begun hclosed => cases hrow
    | refused message hopen => cases hrow
    | ended hcall hopen hprimary =>
        rcases hcall with ⟨rfl, -⟩ | ⟨rfl, -⟩
        · cases hrow
        · cases hrow
    | row hc hrowCalled =>
        have hreturns := hrowCalled.returns
        rw [Except.ok.inj hresult] at hreturns
        cases call with
        | insertRow row' draw =>
            -- the row's key is stored, so the row is refused
            obtain rfl := Option.some.inj hrow
            obtain ⟨key', hkey', rfl⟩ := Option.map_eq_some_iff.mp hc
            obtain rfl := Except.ok.inj
              ((eq_ok_of_toOption hkey').symm.trans hkey)
            simp [mapCall, hbound] at hreturns
        | updateRow key' row' =>
            obtain rfl := Option.some.inj hrow
            obtain rfl := Option.some.inj hc
            have hbound' : (m.lookup key').isSome := by
              by_contra hnone
              simp [mapCall, hnone] at hreturns
            obtain ⟨data, hdata⟩ := Option.isSome_iff_exists.mp hbound'
            have hmem := SortedMap.lookup_eq_some_iff.mp hdata
            obtain ⟨stored, hstored, -⟩ := h.keyed _ hmem
            obtain ⟨hcarries, -⟩ := hkeeps.update key' row' stored rfl
              (h.holds.stores hmem hstored)
            obtain rfl := Except.ok.inj (hcarries.symm.trans hkey)
            exact (hkeeps.update key' row' row' rfl hstores).2 rfl
        | deleteRow key' => cases hrow
        | beginTransaction => cases hrow
        | commit => cases hrow
        | rollback => cases hrow
  · cases hhanded

/-- One call that keeps the stored keys. -/
theorem step (h : Orderly start events s m received) {ndebug : Bool}
    {s' : System} {e : ThreadId × TableCall} (hkeeps : s.KeepsKey e)
    (he : e ∈ events) (hstep : System.step ndebug s e = some s') :
    ∃ m' received', Orderly start events s' m' received' := by
  obtain ⟨t, call⟩ := e
  obtain ⟨o, hrun, rfl⟩ := exists_call_of_step hstep
  have hcalled := h.holds.called hrun
  refine ⟨_, _, h.toServes.called hrun, h.keyed.mapStep ?_,
    hcalled.booked h.booked, ?_, ?_⟩
  · intro key row hcall hsome
    obtain ⟨data, hdata⟩ := Option.isSome_iff_exists.mp hsome
    have hmem := SortedMap.lookup_eq_some_iff.mp hdata
    obtain ⟨stored, hstored, -⟩ := h.keyed _ hmem
    rw [← h.schema]
    exact (hkeeps.update key row stored hcall
      (h.holds.stores hmem hstored)).1
  · refine List.nodup_append.mpr ⟨h.nodup, ?_, fun row hrow row' hrow' => ?_⟩
    · rw [TableCall.handedOver]
      split
      · cases call.row <;> simp
      · exact List.nodup_nil
    · rintro rfl
      exact h.handedOver_notMem hkeeps hcalled row hrow' hrow
  · intro row hrow
    rcases List.mem_append.mp hrow with hrow | hrow
    · exact h.passed row hrow
    · rw [TableCall.handedOver] at hrow
      split at hrow
      · exact ⟨_, he, by simpa using hrow⟩
      · cases hrow

theorem keysAgree (h : Orderly start events s m received)
    (hunmodified : Unmodified events) : s.KeysAgree := by
  have hsame : ∀ row ∈ received, ∀ row' ∈ received,
      row.address = row'.address → row = row' := by
    intro row hrow row' hrow'
    obtain ⟨e, he, hpassed⟩ := h.passed row hrow
    obtain ⟨e', he', hpassed'⟩ := h.passed row' hrow'
    exact hunmodified e he e' he' row row' hpassed hpassed'
  have hkeyed := h.keyed
  rw [← h.schema] at hkeyed
  refine h.holds.keysAgree hkeyed fun b hb => ?_
  obtain ⟨row, hrow, hkey⟩ := hkeyed b hb
  exact ⟨row, hrow,
    h.booked.not_freed h.holds h.nodup hsame hb hrow, hkey⟩

end Orderly

/-- On a table with one integer primary key every run of row calls goes
through, and when each update of a stored key brings a row that carries this
key, in a buffer of its own, and no call brings a freed buffer, then every row
of the table carries the key it is found under. -/
theorem rowKeys_agree {ndebug : Bool} {s : System}
    (hfinal : s.Finalized ndebug) {columns : List Column}
    (hcolumns : s.table.schema = Schema.ofColumns columns)
    (hprimary : SinglePrimary columns)
    (hsize : Schema.sizeSum columns < 2 ^ 16)
    (events : List (ThreadId × TableCall))
    (hfits : ∀ e ∈ events, e.2.Fits s.table.schema)
    (hunmodified : Unmodified events)
    (hguard : Machine.Guarded (System.step ndebug) KeepsKey s events) :
    ∃ s', Machine.run (System.step ndebug) s events = some s' ∧
      s'.KeysAgree := by
  have hserves : Serves s.table s SortedMap.empty := ⟨hfinal.holds, rfl⟩
  have hoffset := hprimary.offset_le hsize
  rw [← hcolumns] at hoffset
  obtain ⟨s', hrun, -⟩ := hserves.run ndebug
    fun e he => (hfits e he).operation hoffset
  obtain ⟨m', received, horderly⟩ := Machine.run_invariant_of_guarded
    (P := fun u : System => ∃ m received,
      Orderly s.table events u m received)
    (fun u e u' ⟨m, received, h⟩ ⟨hkeeps, he⟩ hstep =>
      h.step hkeeps he hstep)
    ⟨_, [], hserves, Keyed.empty, hfinal.booked, .nil, by simp⟩
    hguard.and_mem hrun
  exact ⟨s', hrun, horderly.keysAgree hunmodified⟩

/-- The columns of the table that consists of its key. -/
def keyColumns : List Column := [⟨"key".toList, 4, .int32, .primary⟩]

theorem singlePrimary_keyColumns : SinglePrimary keyColumns :=
  ⟨[], _, [], rfl, rfl, rfl, rfl, by simp⟩

/-- A row is inserted and replaced by another one with the same key. -/
theorem rowKeys_agree_replaced_row :
    ∃ s', Machine.run (System.step false) keySystem
        [(0, .insertRow (keyRow 0 1) fun _ => 1),
          (0, .updateRow 1 (keyRow 1 1))] = some s' ∧
      s'.KeysAgree := by
  refine rowKeys_agree (keySystem_finalized false)
    (show keySystem.table.schema = Schema.ofColumns keyColumns from rfl)
    singlePrimary_keyColumns (by decide) _ (fun e he => ?_) ?_ ?_
  · rcases List.mem_cons.mp he with rfl | he
    · rfl
    · obtain rfl := List.mem_singleton.mp he
      rfl
  · simp [Unmodified, TableCall.row, keyRow]
  · refine ⟨⟨fun key row stored h => (by cases h), ?_⟩, fun s₁ h₁ => ?_⟩
    · rintro row - ⟨sl, hsl, row', hfreed, -⟩
      obtain rfl : _ = sl := Option.some.inj hsl
      cases hfreed
    have hstored : ∃ sl, s₁.table.schema = keySystem.table.schema ∧
        s₁.table.primary = some sl ∧ sl.heap.freed = [] ∧
        (∀ info, sl.heap.rowInfo 0 = some info →
          info.data = some (keyRow 0 1)) ∧
        ∀ r, sl.heap.rowInfo (r + 1) = none := by
      obtain rfl : _ = s₁ := Option.some.inj h₁
      refine ⟨_, rfl, rfl, rfl, fun info hinfo => ?_, fun r => rfl⟩
      obtain rfl : _ = info := Option.some.inj hinfo
      rfl
    obtain ⟨sl₁, hschema, hprimary, hfreed, hzero, hsucc⟩ := hstored
    refine ⟨⟨?_, ?_⟩, fun _ _ => trivial⟩
    · rintro key row stored h ⟨sl, r, info, hsl, -, hinfo, hdata⟩
      cases h
      obtain rfl := Option.some.inj (hprimary.symm.trans hsl)
      refine ⟨by rw [hschema]; rfl, ?_⟩
      cases r with
      | zero =>
          obtain rfl := Option.some.inj ((hzero info hinfo).symm.trans hdata)
          decide
      | succ r => cases (hsucc r).symm.trans hinfo
    · rintro row - ⟨sl, hsl, row', hmem, -⟩
      obtain rfl := Option.some.inj (hprimary.symm.trans hsl)
      rw [hfreed] at hmem
      cases hmem

/-- A row with key 1 is replaced by one with key 2, and a row with key 2 is
inserted: both carry key 2. -/
theorem updateRow_changes_key :
    ∃ s' sl, keySystem.Finalized false ∧
      keySystem.table.schema = Schema.ofColumns keyColumns ∧
      SinglePrimary keyColumns ∧ Schema.sizeSum keyColumns < 2 ^ 16 ∧
      Machine.run (System.step false) keySystem
        [(0, .insertRow (keyRow 0 1) fun _ => 1),
          (0, .updateRow 1 (keyRow 1 2)),
          (0, .insertRow (keyRow 2 2) fun _ => 1)] = some s' ∧
      s'.scan (fun _ => .next) =
        .ok (.returned [(1, some (keyRow 1 2)), (2, some (keyRow 2 2))] sl) ∧
      (keyRow 1 2).readInt32 s'.table.schema.getPrimaryOffset = .ok 2 ∧
      (keyRow 2 2).readInt32 s'.table.schema.getPrimaryOffset = .ok 2 :=
  ⟨_, _, keySystem_finalized false, rfl, singlePrimary_keyColumns,
    by decide, rfl, rfl, rfl, rfl⟩

end System

end SquidDB.Engine
