import SquidDB.Core.BufferOwnership
import SquidDB.Engine.TableCalls

/-!
# The row buffers of a table

A row call that returns true has handed its buffer to the primary index, which
keeps it in a node until it frees it; any other call leaves the buffer with its
caller.  Transactions have no part in this: they mark rows.
-/

namespace SquidDB.Engine

open Checked SquidDB.Core SquidDB.Storage Ledger

theorem accounts_marked {received : List RowBuffer} {sl : PrimaryIndex}
    {head : Entry Int32} {spine : List (Entry Int32)}
    (hacc : Accounts received sl head spine) (status : Status)
    (rows : List KeyRowInfo) :
    Accounts received (markedList sl status rows) head spine where
  toPrimaryWellFormed :=
    marked_wellFormed hacc.toPrimaryWellFormed status rows
  balanced := by
    rw [markedList, contents_marked]
    exact hacc.balanced

/-- The row the caller passes. -/
def TableCall.row : TableCall → Option RowBuffer
  | .insertRow row _ | .updateRow _ row => some row
  | .deleteRow _ | .beginTransaction | .commit | .rollback => none

/-- What a call that ends with this result has handed to the index. -/
def TableCall.handedOver (call : TableCall) (result : Except String Bool) :
    List RowBuffer :=
  if result = .ok true then call.row.toList else []

theorem TableCall.buffer_operation {schema : Schema} {call : TableCall}
    {c : Call Int32 RowBuffer} (hc : call.operation schema = some c) :
    c.buffer = call.row := by
  cases call with
  | insertRow row draw =>
      obtain ⟨key, -, rfl⟩ := Option.map_eq_some_iff.mp hc
      rfl
  | updateRow key row => cases hc; rfl
  | deleteRow key => cases hc; rfl
  | beginTransaction => cases hc
  | commit => cases hc
  | rollback => cases hc

namespace System

variable {s s' : System} {m : SortedMap Int32 (RowData RowBuffer)}
  {t : ThreadId} {received : List RowBuffer}

/-! ## What the index has been handed -/

/-- The buffers were handed to the index, which holds them or has freed
them. -/
def Booked (s : System) (received : List RowBuffer) : Prop :=
  ∃ sl head spine, s.table.primary = some sl ∧ Accounts received sl head spine

/-- The index has freed the buffer at the address. -/
def Freed (s : System) (address : ℕ) : Prop :=
  ∃ sl, s.table.primary = some sl ∧
    ∃ row ∈ sl.heap.freed, row.address = address

theorem Finalized.booked {ndebug : Bool} (h : s.Finalized ndebug) :
    s.Booked [] := by
  obtain ⟨table, schemaWritable, hnew, hrun⟩ := h.table
  obtain ⟨hmax, htable⟩ := Table.finalizeSchema_spec hnew hrun
  exact ⟨_, _, [], by rw [htable],
    ⟨initialList_wellFormed true hmax, rfl, .nil, by simp⟩, balanced_nil⟩

/-- A call hands over its buffer when it returns true, and no buffer
otherwise. -/
theorem Called.booked {call : TableCall} {o : Outcome System Bool}
    (h : Called s m t call o) (hbooked : s.Booked received) :
    o.state.Booked (received ++ call.handedOver o.result) := by
  obtain ⟨sl, head, spine, hprimary, hacc⟩ := hbooked
  cases h with
  | begun hclosed =>
      exact ⟨sl, head, spine, hprimary, by
        simpa [TableCall.handedOver, TableCall.row] using hacc⟩
  | refused message hopen =>
      exact ⟨sl, head, spine, hprimary, by
        simpa [TableCall.handedOver, TableCall.row] using hacc⟩
  | ended hcall hopen hprimary' =>
      obtain rfl := Option.some.inj (hprimary.symm.trans hprimary')
      have hnone : call.row = none := by
        rcases hcall with ⟨rfl, -⟩ | ⟨rfl, -⟩
        · rfl
        · rfl
      refine ⟨_, head, spine, rfl, ?_⟩
      rw [TableCall.handedOver, hnone, Option.toList_none, ite_self,
        List.append_nil]
      exact accounts_marked hacc _ _
  | row hc hrow =>
      obtain ⟨ndebug, sl₀, sl', rows, hprimary₀, hcall, hprimary'⟩ :=
        hrow.index
      obtain rfl := Option.some.inj (hprimary.symm.trans hprimary₀)
      obtain ⟨o, hrun, htrue, hfalse⟩ := hacc.call ndebug _
      obtain rfl := Except.ok.inj (hrun.symm.trans hcall)
      rw [Outcome.result_returned, TableCall.handedOver]
      split
      · next hresult =>
        obtain ⟨spine', hacc'⟩ := htrue hresult
        rw [← TableCall.buffer_operation hc]
        exact ⟨_, head, spine', hprimary', accounts_marked hacc' _ _⟩
      · next hresult =>
        rw [List.append_nil]
        obtain rfl : sl' = sl := hfalse hresult
        exact ⟨_, head, spine, hprimary', accounts_marked hacc _ _⟩

theorem mem_mapStep {table : Table} {call : TableCall}
    {b : Int32 × RowData RowBuffer}
    (hb : b ∈ (mapStep table m call).entries) :
    b ∈ m.entries ∨ ∃ c, call.operation table.schema = some c ∧
      c.binding = some b ∧ (mapCall table.maxNodeHeight m c).1 = .ok true := by
  rw [mapStep] at hb
  rcases hc : call.operation table.schema with _ | c
  · rw [hc] at hb
    exact .inl hb
  · rw [hc] at hb
    exact (mem_mapCall hb).imp_right fun hbinding => ⟨c, rfl, hbinding⟩

/-- The books are about the rows that the map binds. -/
theorem Booked.balanced (hbooked : s.Booked received) (hs : s.Holds m) :
    ∃ sl, s.table.primary = some sl ∧
      Balanced received (buffers m.entries) sl.heap.freed := by
  obtain ⟨sl, head, spine, hprimary, hacc⟩ := hbooked
  obtain ⟨-, sl', hprimary', hrep⟩ := hs
  obtain rfl := Option.some.inj (hprimary.symm.trans hprimary')
  exact ⟨sl, hprimary, hacc.balanced_of_represents hrep⟩

theorem mem_buffers {entries : List (Int32 × RowData RowBuffer)}
    {row : RowBuffer} :
    row ∈ buffers entries ↔ ∃ b ∈ entries, b.2.data = some row := by
  simp [buffers]

/-- When each buffer was handed over once, and buffers at one address are the
same, no row that is bound has been freed. -/
theorem Booked.not_freed (hbooked : s.Booked received) (hs : s.Holds m)
    (hnodup : received.Nodup)
    (hsame : ∀ row ∈ received, ∀ row' ∈ received,
      row.address = row'.address → row = row')
    {b : Int32 × RowData RowBuffer} (hb : b ∈ m.entries) {row : RowBuffer}
    (hrow : b.2.data = some row) : ¬s.Freed row.address := by
  obtain ⟨sl, hprimary, hbalanced⟩ := hbooked.balanced hs
  rintro ⟨sl', hprimary', freed, hfreed, haddress⟩
  obtain rfl := Option.some.inj (hprimary.symm.trans hprimary')
  have hheld : row ∈ buffers m.entries := mem_buffers.mpr ⟨b, hb, hrow⟩
  obtain rfl := hsame freed
    (hbalanced.mem_iff.mpr (List.mem_append_right _ hfreed)) row
    (hbalanced.mem_iff.mpr (List.mem_append_left _ hheld)) haddress
  obtain ⟨-, -, hdisjoint⟩ :=
    List.nodup_append.mp (hbalanced.nodup_iff.mp hnodup)
  exact hdisjoint freed hheld freed hfreed rfl

end System

/-! ## The buffers of a run -/

/-- A system, and the buffers it has been handed so far. -/
structure Entrusted where
  system : System
  received : List RowBuffer

namespace Entrusted

/-- Before the first call. -/
def initial (s : System) : Entrusted := ⟨s, []⟩

/-- The machine of whole calls, with the buffers noted. -/
def step (ndebug : Bool) (s : Entrusted) (e : ThreadId × TableCall) :
    Option Entrusted :=
  (s.system.call ndebug e.1 e.2).toOption.map fun o =>
    ⟨o.state, s.received ++ e.2.handedOver o.result⟩

variable {ndebug : Bool} {s s' : Entrusted} {e : ThreadId × TableCall}

/-- The note does not influence the system. -/
theorem step_system (ndebug : Bool) (s : Entrusted)
    (e : ThreadId × TableCall) :
    (s.step ndebug e).map system = s.system.step ndebug e := by
  rw [step, System.step, Option.map_map]
  rfl

/-- A step, as a call. -/
theorem exists_call_of_step (hstep : s.step ndebug e = some s') :
    ∃ o, s.system.call ndebug e.1 e.2 = .ok o ∧
      s' = ⟨o.state, s.received ++ e.2.handedOver o.result⟩ := by
  obtain ⟨o, ho, hstate⟩ := Option.map_eq_some_iff.mp hstep
  exact ⟨o, eq_ok_of_toOption ho, hstate.symm⟩

/-- Only rows that were passed are handed over. -/
theorem run_received {events : List (ThreadId × TableCall)}
    (hrun : Machine.run (step ndebug) s events = some s') :
    s'.received.Sublist
      (s.received ++ events.filterMap fun e => e.2.row) := by
  induction events generalizing s with
  | nil =>
      obtain rfl := Option.some.inj hrun
      simp
  | cons e events ih =>
      obtain ⟨s₁, hstep, hrun⟩ := Option.bind_eq_some_iff.mp hrun
      obtain ⟨o, -, rfl⟩ := exists_call_of_step hstep
      have hhanded : (e.2.handedOver o.result).Sublist e.2.row.toList := by
        rw [TableCall.handedOver]
        split
        · exact List.Sublist.refl _
        · exact List.nil_sublist _
      rw [filterMap_cons_toList, ← List.append_assoc]
      exact (ih hrun).trans
        ((hhanded.append_left _).append_right _)

end Entrusted

end SquidDB.Engine
