import Netlist.Event.Printer
import Netlist.Proofs.Events
import Netlist.Proofs.Spelled

/-! # The tokens of printed events

The text of a well-formed event spells the tokens of the event (`Event.spells_text`), so the text of
several events spells their tokens in a row (`spells_printed`). A comment is scanned without a
carriage return at its end. -/

namespace Netlist

/-! ### Texts that spell tokens -/

/-- The text spells the tokens, whatever follows it. -/
def Spells (text : String) (ts : List Token) : Prop :=
  ∀ us bytes, Spelled us bytes → Spelled (ts ++ us) (Utf8.encode text ++ bytes)

namespace Spells

theorem append {s t : String} {ts us : List Token} (h : Spells s ts) (h' : Spells t us) :
    Spells (s ++ t) (ts ++ us) := fun ws bytes hw => by
  rw [Utf8.encode_append, List.append_assoc, List.append_assoc]
  exact h _ _ (h' _ _ hw)

theorem empty : Spells "" [] := fun _ _ h => h

theorem space : Spells " " [] := fun _ _ h => .blank (by decide) h

theorem lineFeed : Spells "\n" [] := fun _ _ h => .blank (by decide) h

theorem mark (p : Punct) : Spells p.text [.punct p] := fun _ _ h => by
  cases p <;> exact .mark _ h

theorem token {t : Token} (ht : t.WellFormed) (hs : t.isSignificant = true) :
    Spells (t.spelling ++ " ") [t] := fun _ _ h => by
  rw [Utf8.encode_append, List.append_assoc]
  exact .token ht hs (by decide) h

theorem keyword (k : Keyword) : Spells (k.text ++ " ") [.keyword k] :=
  token (t := .keyword k) trivial rfl

theorem name {name : String} (h : IsName name) : Spells (quoteName name ++ " ") [.ofName name] := by
  rw [← Token.spelling_ofName]
  exact token (Token.wellFormed_ofName h) (Token.isSignificant_ofName name)

theorem comment {text : String} (h : '\n' ∉ text.toList) :
    Spells ("//" ++ text ++ "\n") [.comment (trimReturn text)] := fun _ _ hs => by
  rw [Utf8.encode_append, List.append_assoc]
  exact .comment h hs

end Spells

/-! ### The tokens of an event -/

namespace Signal

/-- The token of the signal, less its tilde. -/
def token (s : Signal) : Token :=
  if s.isConstant then .constant (s.name == constantName true) else .ofName s.name

/-- The tokens that the signal is printed as. -/
def tokens (s : Signal) : List Token :=
  if s.negated then [.punct .tilde, s.token] else [s.token]

theorem isConstant_iff {s : Signal} :
    s.isConstant = true ↔ s.name = constantName (s.name == constantName true) := by
  unfold isConstant
  by_cases h : s.name = constantName true
  · simp [h]
  · have hf : (s.name == constantName true) = false := by simpa using h
    simp [hf]

@[simp] theorem signalName?_token (s : Signal) : s.token.signalName? = some s.name := by
  unfold token
  split_ifs with h
  · exact congrArg some (isConstant_iff.mp h).symm
  · have hn := Token.name?_ofName s.name
    cases ht : Token.ofName s.name <;> rw [ht] at hn <;>
      first | exact hn | cases hn

theorem spells_quoted {s : Signal} (h : IsName s.name) : Spells (s.quoted ++ " ") s.tokens := by
  have htoken : Spells ((if s.isConstant then s.name else quoteName s.name) ++ " ") [s.token] := by
    unfold token
    split_ifs with hc
    · rw [congrArg (· ++ " ") (isConstant_iff.mp hc)]
      exact Spells.token (t := .constant _) trivial rfl
    · exact .name h
  unfold quoted tokens mark
  split_ifs at htoken ⊢
  all_goals first
    | exact htoken
    | (rw [String.append_assoc]; exact (Spells.mark .tilde).append htoken)

end Signal

/-- The tokens of names with commas between them. -/
def nameTokens : List String → List Token
  | [] => []
  | [name] => [.ofName name]
  | name :: names => .ofName name :: .punct .comma :: nameTokens names

theorem spells_nameList {names : List String} (h : IsNames names) :
    Spells (nameList names ++ " ") (nameTokens names) := by
  obtain ⟨hne, hn⟩ := h
  induction names with
  | nil => exact absurd rfl hne
  | cons name names ih =>
    obtain ⟨h1, h2⟩ := List.forall_mem_cons.mp hn
    cases names with
    | nil => simpa [nameList, nameTokens] using Spells.name h1
    | cons next names =>
      have hcomma : " , " = " " ++ (Punct.comma.text ++ " ") := by decide
      have htext : nameList (name :: next :: names) ++ " " = (quoteName name ++ " ") ++
          (Punct.comma.text ++ (" " ++ (nameList (next :: names) ++ " "))) := by
        simp only [nameList, List.map_cons, String.intercalate_cons_cons, hcomma,
          String.append_assoc]
      rw [htext]
      exact (Spells.name h1).append ((Spells.mark .comma).append
        (Spells.space.append (ih (by simp) h2)))

namespace Gate

/-- The tokens of two operands with an operator between them. -/
def pairTokens (op : BinOp) (a b : Signal) : List Token :=
  a.tokens ++ .punct op.punct :: b.tokens

/-- The tokens of one term of a majority. -/
def termTokens (a b : Signal) : List Token :=
  .punct .openParen :: (pairTokens .and a b ++ [.punct .closeParen])

/-- The tokens that the gate is printed as. -/
def tokens : Gate → List Token
  | copy a => a.tokens
  | binary op a b => pairTokens op a b
  | majority a b c =>
    termTokens a b ++ .punct .bar :: (termTokens a c ++ .punct .bar :: termTokens b c)

theorem spells_pairText (op : BinOp) {a b : Signal} (ha : IsName a.name) (hb : IsName b.name) :
    Spells (pairText op a b ++ " ") (pairTokens op a b) := by
  have htext : pairText op a b ++ " " =
      (a.quoted ++ " ") ++ (op.punct.text ++ (" " ++ (b.quoted ++ " "))) := by
    simp only [pairText, BinOp.text, String.append_assoc]
  rw [htext]
  exact (Signal.spells_quoted ha).append ((Spells.mark op.punct).append
    (Spells.space.append (Signal.spells_quoted hb)))

theorem spells_termText {a b : Signal} (ha : IsName a.name) (hb : IsName b.name) :
    Spells (termText a b) (termTokens a b) := by
  have hopen : "( " = Punct.openParen.text ++ " " := by decide
  have hclose : " )" = " " ++ Punct.closeParen.text := by decide
  have htext : termText a b = Punct.openParen.text ++ (" " ++ ((pairText .and a b ++ " ") ++
      Punct.closeParen.text)) := by
    simp only [termText, hopen, hclose, String.append_assoc]
  rw [htext]
  exact (Spells.mark .openParen).append (Spells.space.append
    ((spells_pairText .and ha hb).append (.mark .closeParen)))

theorem spells_text {gate : Gate} (h : gate.WellFormed) :
    Spells (gate.text ++ " ") gate.tokens := by
  have hn := h.isName
  cases gate with
  | copy a => exact Signal.spells_quoted (hn a (by simp [signals]))
  | binary op a b => exact spells_pairText op (hn a (by simp [signals])) (hn b (by simp [signals]))
  | majority a b c =>
    have ha := hn a (by simp [signals])
    have hb := hn b (by simp [signals])
    have hc := hn c (by simp [signals])
    have hbar : " | " = " " ++ (Punct.bar.text ++ " ") := by decide
    have htext : (majority a b c).text ++ " " = termText a b ++ (" " ++ (Punct.bar.text ++ (" " ++
        (termText a c ++ (" " ++ (Punct.bar.text ++ (" " ++ (termText b c ++ " ")))))))) := by
      simp only [text, hbar, String.append_assoc]
    have hlast := (Spells.mark .bar).append (Spells.space.append
      ((spells_termText hb hc).append Spells.space))
    have hnext := (Spells.mark .bar).append (Spells.space.append
      ((spells_termText ha hc).append (Spells.space.append hlast)))
    rw [htext]
    simpa [tokens] using (spells_termText ha hb).append (Spells.space.append hnext)

end Gate

namespace Event

/-- The tokens of the event. A carriage return at the end of a comment is lost. -/
def tokens : Event → List Token
  | header name ports => .keyword .module :: .ofName name :: .punct .openParen ::
    (nameTokens ports ++ [.punct .closeParen, .punct .semicolon])
  | declare direction names => .keyword direction.keyword ::
    (nameTokens names ++ [.punct .semicolon])
  | assign target gate => .keyword .assign :: .ofName target :: .punct .equals ::
    (gate.tokens ++ [.punct .semicolon])
  | endmodule => [.keyword .endmodule]
  | comment text => [.comment (trimReturn text)]

/-- **The line of an event spells its tokens.** -/
theorem spells_text {e : Event} (h : e.WellFormed) : Spells (e.text ++ "\n") e.tokens := by
  have hsemicolon : " ;" = " " ++ Punct.semicolon.text := by decide
  have hend : Spells (Punct.semicolon.text ++ "\n") [.punct .semicolon] :=
    (Spells.mark .semicolon).append .lineFeed
  have hindent : Spells "  " [] := Spells.space.append .space
  cases e with
  | header name ports =>
    have hopen : " ( " = " " ++ (Punct.openParen.text ++ " ") := by decide
    have hclose : " ) ;" = " " ++ (Punct.closeParen.text ++ (" " ++ Punct.semicolon.text)) := by
      decide
    have htext : (header name ports).text ++ "\n" = (Keyword.module.text ++ " ") ++
        ((quoteName name ++ " ") ++ (Punct.openParen.text ++ (" " ++ ((nameList ports ++ " ") ++
          (Punct.closeParen.text ++ (" " ++ (Punct.semicolon.text ++ "\n"))))))) := by
      simp only [text, hopen, hclose, String.append_assoc]
    rw [htext]
    exact (Spells.keyword .module).append ((Spells.name h.1).append
      ((Spells.mark .openParen).append (Spells.space.append ((spells_nameList h.2).append
        ((Spells.mark .closeParen).append (Spells.space.append hend))))))
  | declare direction names =>
    have htext : (declare direction names).text ++ "\n" = "  " ++
        ((direction.keyword.text ++ " ") ++ ((nameList names ++ " ") ++
          (Punct.semicolon.text ++ "\n"))) := by
      simp only [text, hsemicolon, String.append_assoc]
    rw [htext]
    exact hindent.append ((Spells.keyword _).append ((spells_nameList h).append hend))
  | assign target gate =>
    have hequals : " = " = " " ++ (Punct.equals.text ++ " ") := by decide
    have htext : (assign target gate).text ++ "\n" = "  " ++ ((Keyword.assign.text ++ " ") ++
        ((quoteName target ++ " ") ++ (Punct.equals.text ++ (" " ++ ((gate.text ++ " ") ++
          (Punct.semicolon.text ++ "\n")))))) := by
      simp only [text, hequals, hsemicolon, String.append_assoc]
    rw [htext]
    exact hindent.append ((Spells.keyword .assign).append ((Spells.name h.1).append
      ((Spells.mark .equals).append (Spells.space.append ((Gate.spells_text h.2).append hend)))))
  | endmodule => exact fun _ _ hs => .token (t := .keyword .endmodule) trivial rfl (by decide) hs
  | comment text => exact .comment h

end Event

theorem spells_printed {events : List Event} (h : ∀ e ∈ events, e.WellFormed) :
    Spells (printed events) (events.flatMap Event.tokens) := by
  unfold printed
  induction events with
  | nil => simpa using Spells.empty
  | cons e events ih =>
    obtain ⟨he, hes⟩ := List.forall_mem_cons.mp h
    rw [List.map_cons, String.join_cons, List.flatMap_cons]
    exact (Event.spells_text he).append (ih hes)

end Netlist
