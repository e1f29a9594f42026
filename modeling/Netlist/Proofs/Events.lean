import Netlist.Proofs.Gathered
import Netlist.Proofs.Grammar

/-! # The events of a module

What reading reports can be written again: each event is well formed, and the events are those of
one module (`IsModuleEvents`). Main statement: `wellFormed_of_read`. -/

namespace Netlist

namespace Event

def isComment : Event → Bool
  | comment _ => true
  | _ => false

theorem isComment_iff {e : Event} : e.isComment = true ↔ ∃ text, e = comment text := by
  cases e <;> simp [isComment]

/-- The event may stand between the header and the end of a module. -/
def isBody : Event → Bool
  | declare _ _ | assign _ _ | comment _ => true
  | _ => false

end Event

/-- The events are those of one module: comments, a header, its body and its end. -/
def IsModuleEvents (events : List Event) : Prop :=
  ∃ comments name ports body, events = comments ++ .header name ports :: (body ++ [.endmodule]) ∧
    (∀ e ∈ comments, e.isComment = true) ∧ ∀ e ∈ body, e.isBody = true

/-! ### The order of the events -/

namespace Progress

variable {p q : Progress} {l : Lexeme} {event : Option Event} {ts : List Taken}

theorem Step.of_inBody (h : Step p l event q) (hp : p.stage = .inBody) (hq : q ≠ finished) :
    q.stage = .inBody ∧ ∀ e ∈ event.toList, e.isBody = true := by
  cases h with
  | endmodule => exact absurd rfl hq
  | comment => exact ⟨hp, by simp [Event.isBody]⟩
  | declarationEnd | declarationEndLate | gate => exact ⟨rfl, by simp [Event.isBody]⟩
  | _ => first | (simp [stage] at hp; done) | exact ⟨rfl, by simp⟩

/-- A step before the body reports a comment, or the header as the last event before the body. -/
theorem Step.of_header (h : Step p l event q) (hp : p.stage ≠ .inBody) (hp' : p ≠ finished) :
    q.stage ≠ .inBody ∧ (∀ e ∈ event.toList, e.isComment = true) ∨
      q = beforeStatement ∧ ∃ name ports, event = some (.header name ports) := by
  cases h with
  | comment => exact .inl ⟨hp, by simp [Event.isComment]⟩
  | headerEnd => exact .inr ⟨rfl, _, _, rfl⟩
  | _ => first | (simp [stage] at hp; done) | exact .inl ⟨by simp [stage], by simp⟩

theorem Steps.events_body (h : Steps p ts beforeStatement) (hp : p.stage = .inBody) :
    ∀ e ∈ Taken.events ts, e.isBody = true := by
  generalize hr : beforeStatement = r at h
  induction h with
  | nil => simp
  | cons hs h ih =>
    subst hr
    obtain ⟨hq, he⟩ := hs.of_inBody hp (h.ne_finished (by simp))
    rw [Taken.events_cons, List.forall_mem_append]
    exact ⟨he, ih hq rfl⟩

theorem Steps.events_header (h : Steps p ts beforeStatement) (hp : p.stage ≠ .inBody) :
    ∃ comments name ports body, Taken.events ts = comments ++ .header name ports :: body ∧
      (∀ e ∈ comments, e.isComment = true) ∧ ∀ e ∈ body, e.isBody = true := by
  generalize hr : beforeStatement = r at h
  induction h with
  | nil => exact absurd (hr ▸ rfl) hp
  | @cons p q r l event ts hs h ih =>
    subst hr
    have hp' := hs.ne_finished (h.ne_finished (by simp))
    rcases hs.of_header hp hp' with ⟨hq, he⟩ | ⟨rfl, name, ports, rfl⟩
    · obtain ⟨comments, name, ports, body, hts, hc, hb⟩ := ih hq rfl
      refine ⟨event.toList ++ comments, name, ports, body, ?_,
        List.forall_mem_append.mpr ⟨he, hc⟩, hb⟩
      rw [Taken.events_cons, hts, List.append_assoc]
    · exact ⟨[], name, ports, Taken.events ts, rfl, by simp, h.events_body rfl⟩

end Progress

theorem IsModule.isModuleEvents {ts : List Taken} (h : IsModule ts) :
    IsModuleEvents (Taken.events ts) := by
  obtain ⟨body, last, rfl, -, hs⟩ := isModule_iff_steps.mp h
  obtain ⟨comments, name, ports, events, he, hc, hb⟩ := hs.events_header (by simp [Progress.stage])
  exact ⟨comments, name, ports, events, by simp [he], hc, hb⟩

/-- **What reading reports** is well formed and makes up one module. -/
theorem wellFormed_of_read {options : ScanOptions} {source : Source} {events : List Event}
    (h : read options source .recorder #[] = (.ok (), events.toArray)) :
    IsModuleEvents events ∧ ∀ e ∈ events, e.WellFormed := by
  rw [read_recorder, Prod.mk.injEq] at h
  obtain ⟨hr, he⟩ := h
  obtain rfl := List.toArray_inj he
  have hw : Progress.beforeModule.WellFormed := trivial
  exact ⟨(isModule_of_course hr).isModuleEvents, (Session.wellFormed_course options _ hw).2⟩

end Netlist
