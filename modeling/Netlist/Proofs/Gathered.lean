import Netlist.Proofs.Course
import Netlist.Proofs.Shape

/-! # What has been gathered

The progress through a module holds names and lexemes for the construct under way. They are kept
from lexeme to lexeme, and some of them over an error, but they are always such that the construct
can be written again (`Progress.WellFormed`). So every event is well formed (`Event.WellFormed`).
Main statement: `Session.wellFormed_course`. -/

namespace Netlist

/-- The names make up a list of names: there is one at least. -/
def IsNames (names : List String) : Prop := names ≠ [] ∧ ∀ name ∈ names, IsName name

/-- The signals of the gate have names, and those of a majority have different ones. -/
structure Gate.WellFormed (gate : Gate) : Prop where
  isName : ∀ s ∈ gate.signals, IsName s.name
  distinct : ∀ a b c, gate = .majority a b c →
    a.name ≠ b.name ∧ a.name ≠ c.name ∧ b.name ≠ c.name

/-- Every name of the event is one, its lists are not empty, and a comment keeps to its line. -/
def Event.WellFormed : Event → Prop
  | header name ports => IsName name ∧ IsNames ports
  | declare _ names => IsNames names
  | assign target gate => IsName target ∧ gate.WellFormed
  | endmodule => True
  | comment text => '\n' ∉ text.toList

/-! ### Gates -/

theorem isName_constantName (value : Bool) : IsName (constantName value) := by
  cases value <;> simp [IsName, constantName, endsName]

theorem Token.WellFormed.isName_of_asSignal {t : Token} {name : String} (h : t.WellFormed)
    (ht : t.asSignal = .escaped name) : IsName name := by
  have hn := Token.signalName?_of_asSignal ht
  cases t with
  | constant value =>
    cases hn
    exact isName_constantName value
  | _ => exact h.isName hn

theorem Gate.wellFormed_of_ofLexemes {ls : List Lexeme} {limit : Span} {gate : Gate}
    (h : ofLexemes ls limit = .ok gate) (hls : ∀ l ∈ ls, l.token.WellFormed) :
    gate.WellFormed := by
  obtain ⟨e, hd, he⟩ := describes_of_ofLexemes h
  refine ⟨fun s hs => ?_, ?_⟩
  · have hm := hd.mem_written hs
    rw [← he, List.map_map, List.mem_map] at hm
    obtain ⟨l, hl, hls'⟩ := hm
    exact (hls l hl).isName_of_asSignal hls'
  · rintro a b c rfl
    cases hd with
    | majority hm => exact ⟨hm.ab_ne, hm.ac_ne, hm.bc_ne⟩

/-! ### Progress -/

namespace Progress

/-- What has been gathered is well formed. A list has a name once no other name is waited for. -/
def WellFormed : Progress → Prop
  | beforePorts name => IsName name
  | beforePort name ports => IsName name ∧ ∀ port ∈ ports.toList, IsName port
  | afterPort name ports | beforePortsEnd name ports | beforeHeaderEnd name ports =>
    IsName name ∧ IsNames ports.toList
  | beforeDeclared _ names => ∀ name ∈ names.toList, IsName name
  | afterDeclared _ names | beforeDeclarationEnd _ names => IsNames names.toList
  | beforeEquals target => IsName target
  | inExpression target _ lexemes => IsName target ∧ ∀ l ∈ lexemes.toList, l.token.WellFormed
  | beforeModule | beforeName | beforeStatement | beforeTarget | finished => True

variable {p q : Progress} {l : Lexeme} {event : Option Event}

theorem isNames_push {names : Array String} {name : String}
    (h : ∀ name ∈ names.toList, IsName name) (hn : IsName name) :
    IsNames (names.push name).toList := by
  rw [Array.toList_push]
  exact ⟨by simp, List.forall_mem_append.mpr ⟨h, List.forall_mem_singleton.mpr hn⟩⟩

theorem wellFormed_push {lexemes : Array Lexeme}
    (h : ∀ m ∈ lexemes.toList, m.token.WellFormed) (hl : l.token.WellFormed) :
    ∀ m ∈ (lexemes.push l).toList, m.token.WellFormed := by
  rw [Array.toList_push]
  exact List.forall_mem_append.mpr ⟨h, List.forall_mem_singleton.mpr hl⟩

/-- **A step keeps what has been gathered well formed**, and so is the event that it completes. -/
theorem Step.wellFormed (h : Step p l event q) (hp : p.WellFormed) (hl : l.token.WellFormed) :
    q.WellFormed ∧ ∀ e ∈ event.toList, e.WellFormed := by
  cases h with
  | comment ht =>
    rw [ht] at hl
    exact ⟨hp, List.forall_mem_singleton.mpr hl⟩
  | name hn | target hn => exact ⟨hl.isName hn, List.forall_mem_nil _⟩
  | portsStart => exact ⟨⟨hp, List.forall_mem_nil _⟩, List.forall_mem_nil _⟩
  | port hn => exact ⟨⟨hp.1, isNames_push hp.2 (hl.isName hn)⟩, List.forall_mem_nil _⟩
  | portComma => exact ⟨⟨hp.1, hp.2.2⟩, List.forall_mem_nil _⟩
  | portsEnd | portsEndLate => exact ⟨hp, List.forall_mem_nil _⟩
  | headerEnd | declarationEnd | declarationEndLate =>
    exact ⟨trivial, List.forall_mem_singleton.mpr hp⟩
  | declaration => exact ⟨List.forall_mem_nil _, List.forall_mem_nil _⟩
  | declared hn => exact ⟨isNames_push hp (hl.isName hn), List.forall_mem_nil _⟩
  | declaredComma => exact ⟨hp.2, List.forall_mem_nil _⟩
  | equals => exact ⟨⟨hp, List.forall_mem_nil _⟩, List.forall_mem_nil _⟩
  | openParen | closeParen | flat =>
    exact ⟨⟨hp.1, wellFormed_push hp.2 hl⟩, List.forall_mem_nil _⟩
  | gate _ hg =>
    exact ⟨trivial, List.forall_mem_singleton.mpr ⟨hp.1, Gate.wellFormed_of_ofLexemes hg hp.2⟩⟩
  | module | assignment => exact ⟨trivial, List.forall_mem_nil _⟩
  | endmodule => exact ⟨trivial, List.forall_mem_singleton.mpr trivial⟩

theorem WellFormed.restart (h : p.WellFormed) : p.restart.WellFormed := by
  cases p with
  | beforePort | afterPort => exact ⟨h.1, List.forall_mem_nil _⟩
  | beforePortsEnd | beforeHeaderEnd => exact h
  | _ => trivial

theorem WellFormed.of_leave (h : p.WellFormed) (hm : p.move l = .leave q) : q.WellFormed := by
  rcases move_eq_leave hm with ⟨_, _, rfl, rfl⟩ | ⟨_, _, rfl, rfl⟩ <;> exact h

theorem WellFormed.atEnd {pos : Pos} (h : p.WellFormed) (hq : p.atEnd pos = .ok q) :
    q.WellFormed := by
  unfold Progress.atEnd at hq
  split at hq <;> cases hq <;> exact h

theorem WellFormed.settle (h : p.WellFormed) (hl : l.token.WellFormed) :
    (p.settle l).2.WellFormed := by
  fun_induction Progress.settle p l with
  | case1 p q event hm => exact ((step_of_move_take hm).wellFormed h hl).1
  | case2 p q hm ih => exact ih (h.of_leave hm)
  | case3 p e hm => exact h.restart

end Progress

/-! ### Courses -/

/-- **The events of a course are well formed**, however it ends, and so is what has been gathered
then. -/
theorem Session.wellFormed_course (options : ScanOptions) (c : Cursor) {p : Progress}
    (hp : p.WellFormed) :
    (course options c p).progress.WellFormed ∧
      ∀ e ∈ Taken.events (course options c p).taken, e.WellFormed := by
  fun_induction course options c p with
  | case1 => exact ⟨hp, List.forall_mem_nil _⟩
  | case2 c p => exact ⟨hp.restart, List.forall_mem_nil _⟩
  | case3 c p _ d hs q hq ih => exact ih (hp.atEnd hq)
  | case4 c p => exact ⟨hp.restart, List.forall_mem_nil _⟩
  | case5 c p _ l d hs event q hq ih =>
    obtain ⟨hq, he⟩ :=
      (Progress.step_of_settle hq).wellFormed hp (Cursor.wellFormed_of_scan hs)
    obtain ⟨hprogress, hevents⟩ := ih hq
    refine ⟨hprogress, ?_⟩
    rw [Course.after, Taken.events_cons]
    exact List.forall_mem_append.mpr ⟨he, hevents⟩
  | case6 c p _ l d hs e q hq =>
    have hw := hp.settle (Cursor.wellFormed_of_scan hs)
    rw [hq] at hw
    exact ⟨hw, List.forall_mem_nil _⟩

end Netlist
