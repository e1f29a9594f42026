import Netlist.Gate

/-! # Events and observers

What a module reports while it is read: its header, its declarations, its gates, its end, and the
comments at the places where they stand. An observer has one hook for each kind of construct and
carries a state through them. It has no way to influence the reading.

Main statement: an observer made of one function on events observes by that function
(`observe_ofFun`). -/

namespace Netlist

/-- The kinds of declarations. -/
inductive Direction where
  | input
  | output
  | wire
  deriving DecidableEq, Repr

namespace Direction

def keyword : Direction → Keyword
  | input => .input
  | output => .output
  | wire => .wire

end Direction

/-- One construct of a module. A comment is given without its slashes. -/
inductive Event where
  | header (name : String) (ports : List String)
  | declare (direction : Direction) (names : List String)
  | assign (target : String) (gate : Gate)
  | endmodule
  | comment (text : String)
  deriving DecidableEq, Repr

/-! ## Observers -/

/-- The hooks of an observer with states in `σ`. Those that are not given leave the state as it
is. -/
structure Observer (σ : Type) where
  onHeader : (name : String) → (ports : List String) → σ → σ := fun _ _ s => s
  onInputs : (names : List String) → σ → σ := fun _ s => s
  onOutputs : (names : List String) → σ → σ := fun _ s => s
  onWires : (names : List String) → σ → σ := fun _ s => s
  onCopy : (target : String) → (a : Signal) → σ → σ := fun _ _ s => s
  onAnd : (target : String) → (a b : Signal) → σ → σ := fun _ _ _ s => s
  onOr : (target : String) → (a b : Signal) → σ → σ := fun _ _ _ s => s
  onXor : (target : String) → (a b : Signal) → σ → σ := fun _ _ _ s => s
  onMajority : (target : String) → (a b c : Signal) → σ → σ := fun _ _ _ _ s => s
  onEndmodule : σ → σ := id
  onComment : (text : String) → σ → σ := fun _ s => s

namespace Observer

variable {σ : Type}

/-- Calls the hook of one event. There is no other table from constructs to hooks: a session that
reports what it has read, the gate of an assignment that was recognised, and an event that was
recorded and is replayed all go through this one. -/
def observe (o : Observer σ) : Event → σ → σ
  | .header name ports => o.onHeader name ports
  | .declare .input names => o.onInputs names
  | .declare .output names => o.onOutputs names
  | .declare .wire names => o.onWires names
  | .assign target (.copy a) => o.onCopy target a
  | .assign target (.binary .and a b) => o.onAnd target a b
  | .assign target (.binary .or a b) => o.onOr target a b
  | .assign target (.binary .xor a b) => o.onXor target a b
  | .assign target (.majority a b c) => o.onMajority target a b c
  | .endmodule => o.onEndmodule
  | .comment text => o.onComment text

/-- Calls the hooks of events in their order. -/
def replay (o : Observer σ) (events : List Event) (s : σ) : σ :=
  events.foldl (fun s e => o.observe e s) s

/-- The observer that treats every event by one function. -/
def ofFun (f : Event → σ → σ) : Observer σ where
  onHeader name ports := f (.header name ports)
  onInputs names := f (.declare .input names)
  onOutputs names := f (.declare .output names)
  onWires names := f (.declare .wire names)
  onCopy target a := f (.assign target (.copy a))
  onAnd target a b := f (.assign target (.binary .and a b))
  onOr target a b := f (.assign target (.binary .or a b))
  onXor target a b := f (.assign target (.binary .xor a b))
  onMajority target a b c := f (.assign target (.majority a b c))
  onEndmodule := f .endmodule
  onComment text := f (.comment text)

@[simp] theorem observe_ofFun (f : Event → σ → σ) (e : Event) (s : σ) :
    (ofFun f).observe e s = f e s := by
  rcases e with _ | ⟨_ | _ | _, _⟩ | ⟨_, _ | ⟨_ | _ | _, _, _⟩ | _⟩ | _ | _ <;> rfl

@[simp] theorem replay_nil (o : Observer σ) (s : σ) : o.replay [] s = s := rfl

@[simp] theorem replay_cons (o : Observer σ) (e : Event) (es : List Event) (s : σ) :
    o.replay (e :: es) s = o.replay es (o.observe e s) := rfl

theorem replay_append (o : Observer σ) (es fs : List Event) (s : σ) :
    o.replay (es ++ fs) s = o.replay fs (o.replay es s) := List.foldl_append

end Observer

end Netlist
