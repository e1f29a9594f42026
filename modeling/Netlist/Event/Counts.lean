import Netlist.Event

/-! # Recording and counting

The observers that keep what is reported: all events in their order (`Observer.recorder`), or how
many constructs of each kind there were (`Counts.observer`). -/

namespace Netlist

namespace Observer

/-- The observer that ignores everything. -/
def silent : Observer Unit := {}

/-- The observer that keeps every event in order. -/
def recorder : Observer (Array Event) := ofFun fun e events => events.push e

/-- Recording a replay gives the events replayed. -/
theorem replay_recorder (es : List Event) (recorded : Array Event) :
    recorder.replay es recorded = recorded ++ es.toArray := by
  induction es generalizing recorded with
  | nil => simp
  | cons e es ih =>
    have h : recorder.observe e recorded = recorded.push e := observe_ofFun _ _ _
    rw [replay_cons, ih, h, List.push_append_toArray]

end Observer

/-- A count for each kind of construct. Declarations count by their names. -/
structure Counts where
  modules : Nat := 0
  inputs : Nat := 0
  outputs : Nat := 0
  wires : Nat := 0
  copies : Nat := 0
  ands : Nat := 0
  ors : Nat := 0
  xors : Nat := 0
  majorities : Nat := 0
  endmodules : Nat := 0
  comments : Nat := 0
  deriving DecidableEq, Repr

namespace Counts

/-- The number of assignments, whatever their gate. -/
def assigns (c : Counts) : Nat := c.copies + c.ands + c.ors + c.xors + c.majorities

/-- The observer that counts. -/
def observer : Observer Counts where
  onHeader _ _ c := { c with modules := c.modules + 1 }
  onInputs names c := { c with inputs := c.inputs + names.length }
  onOutputs names c := { c with outputs := c.outputs + names.length }
  onWires names c := { c with wires := c.wires + names.length }
  onCopy _ _ c := { c with copies := c.copies + 1 }
  onAnd _ _ _ c := { c with ands := c.ands + 1 }
  onOr _ _ _ c := { c with ors := c.ors + 1 }
  onXor _ _ _ c := { c with xors := c.xors + 1 }
  onMajority _ _ _ _ c := { c with majorities := c.majorities + 1 }
  onEndmodule c := { c with endmodules := c.endmodules + 1 }
  onComment _ c := { c with comments := c.comments + 1 }

/-- The counts of a list of events. -/
def ofEvents (events : List Event) : Counts := observer.replay events {}

end Counts

end Netlist
