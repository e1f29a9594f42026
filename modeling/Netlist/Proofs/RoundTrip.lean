import Netlist.Proofs.Reliable
import Netlist.Proofs.Reread

/-! # Printing and reading back

Events are printed to a sink that never fails, and the text that the sink has taken is read again.
`readsBack_iff_isPrintable` says which lists of events come back as they were. What was read from a
source is among them unless a comment ends with a carriage return
(`readsBack_iff_of_read`). -/

namespace Netlist

variable {ω : Type} {sink : Sink ω}

/-- Printing the events succeeds, and adds the text to what the sink has taken. -/
def Prints (r : sink.Reliable) (s : ω) (events : List Event) (text : String) : Prop :=
  ∃ t, ((Printer.observer sink).replay events ⟨s, none⟩).finish sink = (.ok (), t) ∧
    r.taken t = r.taken s ++ Utf8.encode text

/-- Printing `events` succeeds, and the printed text is read as `reread`. -/
def ReadsBack (r : sink.Reliable) (s : ω) (events reread : List Event) : Prop :=
  ∃ text, Prints r s events text ∧ readText text .recorder #[] = (.ok (), reread.toArray)

/-- The events are those of one module, every name in them can be written, and no comment runs over
its line or ends with a carriage return. -/
def IsPrintable (events : List Event) : Prop :=
  IsModuleEvents events ∧ (∀ e ∈ events, e.WellFormed) ∧
    ∀ text, .comment text ∈ events → text.toList.getLast? ≠ some '\r'

theorem Utf8.encode_inj {s t : String} : encode s = encode t ↔ s = t := by
  refine ⟨fun h => ?_, congrArg encode⟩
  have := congrArg decode? h
  rwa [decode?_encode, decode?_encode, Option.some.injEq] at this

theorem prints_iff {r : sink.Reliable} {s : ω} {events : List Event} {text : String} :
    Prints r s events text ↔ printed events = text := by
  obtain ⟨t, hfinish, htaken⟩ := r.print events s
  constructor
  · rintro ⟨u, hu, ht⟩
    rw [hfinish, Prod.mk.injEq] at hu
    obtain ⟨-, rfl⟩ := hu
    rwa [htaken, List.append_cancel_left_eq, Utf8.encode_inj] at ht
  · rintro rfl
    exact ⟨t, hfinish, htaken⟩

/-- What is read back does not depend on the sink. -/
theorem readsBack_iff {r : sink.Reliable} {s : ω} {events reread : List Event} :
    ReadsBack r s events reread ↔
      readText (printed events) .recorder #[] = (.ok (), reread.toArray) := by
  simp only [ReadsBack, prints_iff, exists_eq_left']

theorem map_trimmed_eq_self_iff {events : List Event} : events.map Event.trimmed = events ↔
    ∀ text, .comment text ∈ events → text.toList.getLast? ≠ some '\r' := by
  have hself : events.map Event.trimmed = events ↔ ∀ e ∈ events, e.trimmed = e := by
    simpa using List.map_inj_left (f := Event.trimmed) (g := id) (l := events)
  rw [hself]
  constructor
  · intro h text ht
    exact trimReturn_eq_self_iff.mp (Event.comment.inj (h _ ht))
  · intro h e he
    cases e with
    | comment text => exact congrArg _ (trimReturn_eq_self_iff.mpr (h text he))
    | _ => rfl

/-- The events of a module are read back, but for carriage returns at the ends of comments. -/
theorem readsBack_iff_eq_trimmed {r : sink.Reliable} {s : ω} {events reread : List Event}
    (h : IsModuleEvents events) (hw : ∀ e ∈ events, e.WellFormed) :
    ReadsBack r s events reread ↔ events.map Event.trimmed = reread := by
  rw [readsBack_iff, readText, read_printed .strict h hw, Prod.mk.injEq]
  exact ⟨fun he => List.toArray_inj he.2, fun he => ⟨rfl, by rw [he]⟩⟩

/-- **The events that are printed and read back unchanged** are the printable ones. -/
theorem readsBack_iff_isPrintable (r : sink.Reliable) (s : ω) (events : List Event) :
    ReadsBack r s events events ↔ IsPrintable events := by
  constructor
  · intro h
    obtain ⟨hm, hw⟩ := wellFormed_of_read (readsBack_iff.mp h)
    exact ⟨hm, hw, map_trimmed_eq_self_iff.mp ((readsBack_iff_eq_trimmed hm hw).mp h)⟩
  · rintro ⟨hm, hw, hreturn⟩
    exact (readsBack_iff_eq_trimmed hm hw).mpr (map_trimmed_eq_self_iff.mpr hreturn)

/-- A comment, a header, a majority and the end of the module come back. -/
theorem readsBack_of_majority :
    let events := [.comment "x", .header "m" ["a", "b", "c", "y"],
      .assign "y" (.majority ⟨"a", false⟩ ⟨"b", true⟩ ⟨"c", false⟩), .endmodule]
    IsPrintable events ∧ ReadsBack Sink.reliable_memory #[] events events := by
  intro events
  have hm : IsName "m" := isName_of_isSimpleName rfl
  have ha : IsName "a" := isName_of_isSimpleName rfl
  have hb : IsName "b" := isName_of_isSimpleName rfl
  have hc : IsName "c" := isName_of_isSimpleName rfl
  have hy : IsName "y" := isName_of_isSimpleName rfl
  have hmodule : IsModuleEvents events :=
    ⟨[.comment "x"], "m", _, [.assign "y" (.majority ⟨"a", false⟩ ⟨"b", true⟩ ⟨"c", false⟩)], rfl,
      by simp [Event.isComment], by simp [Event.isBody]⟩
  have hgate : Gate.WellFormed (.majority ⟨"a", false⟩ ⟨"b", true⟩ ⟨"c", false⟩) := by
    refine ⟨by simp [Gate.signals, ha, hb, hc], ?_⟩
    rintro a b c ⟨⟩
    decide
  have hwell : ∀ e ∈ events, e.WellFormed := by
    simp only [events, List.forall_mem_cons, Event.WellFormed, IsNames]
    exact ⟨by decide, ⟨hm, by simp, ha, hb, hc, hy, List.forall_mem_nil _⟩, ⟨hy, hgate⟩, trivial,
      List.forall_mem_nil _⟩
  have hprintable : IsPrintable events := by
    refine ⟨hmodule, hwell, fun text ht => ?_⟩
    obtain rfl : text = "x" := by simpa [events] using ht
    decide
  exact ⟨hprintable, (readsBack_iff_isPrintable Sink.reliable_memory #[] events).mpr hprintable⟩

/-- **What was read is printed and read back**, less a carriage return at the end of each comment.
So it comes back unchanged exactly if no comment ends with a carriage return. -/
theorem readsBack_iff_of_read {options : ScanOptions} {source : Source} {events : List Event}
    (h : read options source .recorder #[] = (.ok (), events.toArray)) (r : sink.Reliable) (s : ω) :
    ReadsBack r s events (events.map Event.trimmed) ∧
      (ReadsBack r s events events ↔
        ∀ text, .comment text ∈ events → text.toList.getLast? ≠ some '\r') := by
  obtain ⟨hm, hw⟩ := wellFormed_of_read h
  exact ⟨(readsBack_iff_eq_trimmed hm hw).mpr rfl,
    (readsBack_iff_eq_trimmed hm hw).trans map_trimmed_eq_self_iff⟩

/-- A comment with nothing after it on its line comes back. -/
theorem readsBack_of_comment :
    read .strict (.ofBytes (Utf8.encode "//x\r\nmodule m(a);endmodule")) .recorder #[] =
        (.ok (), [Event.comment "x", .header "m" ["a"], .endmodule].toArray) ∧
      ReadsBack Sink.reliable_memory #[] [.comment "x", .header "m" ["a"], .endmodule]
        [.comment "x", .header "m" ["a"], .endmodule] := by
  have h : read .strict (.ofBytes (Utf8.encode "//x\r\nmodule m(a);endmodule")) .recorder #[] =
      (.ok (), [Event.comment "x", .header "m" ["a"], .endmodule].toArray) := by decide +kernel
  refine ⟨h, (readsBack_iff_of_read h _ _).2.mpr fun text ht => ?_⟩
  obtain rfl : text = "x" := by simpa using ht
  decide

/-- Of two carriage returns at the end of a comment one is kept, and it does not come back. -/
theorem not_readsBack_of_return : ∃ events : List Event,
    read .strict (.ofBytes (Utf8.encode "//x\r\r\nmodule m(a);endmodule")) .recorder #[] =
        (.ok (), events.toArray) ∧
      ¬ ReadsBack Sink.reliable_memory #[] events events := by
  refine ⟨[.comment "x\r", .header "m" ["a"], .endmodule], by decide +kernel, fun h => ?_⟩
  exact absurd (readsBack_iff.mp h) (by decide +kernel)

end Netlist
