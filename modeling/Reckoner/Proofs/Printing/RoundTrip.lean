import Reckoner.Expr.Printer
import Reckoner.Proofs.Number.WholeNumber
import Reckoner.Proofs.Parsing.Recognition
import Reckoner.Proofs.Scanning.Cut

/-! # Reading back what is written

The text of a statement that came from a source is one operand: a word, or a parenthesis around two
such operands and an operator. Texts of statements with a space between them are therefore read as the
same statements again, an infinite number excepted, which is written as a name. The mark that joins the
statements of a program is not part of the language.
-/
namespace Reckoner
set_option autoImplicit false

open Alphabet Grammar

mutual
/-- The tree with every infinite number turned into the name that it is written as. -/
def Expr.nameInfinity : Expr → Expr
  | .number x => if x.isInf then .name "inf" else .number x
  | .name id => .name id
  | .text value => .text value
  | .null => .null
  | .program body => .program (nameInfinityAll body)
  | .binary op left right => .binary op left.nameInfinity right.nameInfinity
  | .declare id value => .declare id value.nameInfinity
  | .call callee arguments => .call callee.nameInfinity (nameInfinityAll arguments)
  | .unary op operand => .unary op operand.nameInfinity
  | .function id parameters body => .function id parameters (nameInfinityAll body)

def Expr.nameInfinityAll : List Expr → List Expr
  | [] => []
  | e :: rest => e.nameInfinity :: nameInfinityAll rest
end

def Program.nameInfinity (p : Program) : Program := ⟨Expr.nameInfinityAll p.body⟩

/-- `Restores e e'`: the text of `e` is an operand that spells `e'`. -/
inductive Restores : Expr → Expr → Prop where
  | word {e e' : Expr} {kind : Token.Kind} {word : List Char} : kind.Fits word →
      e.render = String.ofList word →
      (∀ start stop, Spells .operand [⟨kind, String.ofList word, start, stop⟩] e') → Restores e e'
  | binary {left left' right right' : Expr} (op : Operator) : Restores left left' →
      Restores right right' → Restores (.binary op left right) (.binary op left' right')

theorem restores_number {digits : List Char} {x : Float} (hFits : Token.Kind.number.Fits digits)
    (h : Number.read? (String.ofList digits) = some x) :
    Restores (.number x) (Expr.nameInfinity (.number x)) := by
  rw [Expr.nameInfinity]
  rcases Number.render_of_digits hFits.1 hFits.2 h with
    ⟨hInf, hText⟩ | ⟨hInf, written, hText, hWritten, hDigits, hRead⟩
  · have hName : Token.Kind.identifier.Fits ['i', 'n', 'f'] := by
      exact ⟨by simp, List.all_eq_true.mp rfl, by simp, by simp⟩
    rw [if_pos hInf]
    refine .word hName ?_ fun start stop => .name rfl
    rw [Expr.render, hText]
  · have hNumber : Token.Kind.number.Fits written := ⟨hWritten, hDigits⟩
    rw [if_neg (by simp [hInf])]
    refine .word hNumber ?_ fun start stop => .number rfl hRead
    rw [Expr.render, hText]

theorem restores_of_spells {tier : Tier} {ts : List Token} {e : Expr} (h : Spells tier ts e)
    (hFits : ∀ t ∈ ts, t.kind.Fits t.lexeme.toList) : Restores e e.nameInfinity := by
  induction h with
  | @name t hKind =>
    have hWord := hFits t List.mem_cons_self
    rw [hKind] at hWord
    rw [Expr.nameInfinity]
    refine .word hWord ?_ fun start stop => ?_
    · rw [Expr.render, String.ofList_toList]
    · rw [String.ofList_toList]
      exact .name rfl
  | null _ =>
    have hWord : Token.Kind.null.Fits ['n', 'u', 'l', 'l'] := rfl
    rw [Expr.nameInfinity]
    exact .word hWord (by rw [Expr.render]) fun start stop => .null rfl
  | @number t x hKind hValue =>
    have hWord := hFits t List.mem_cons_self
    rw [hKind] at hWord
    refine restores_number hWord ?_
    rwa [String.ofList_toList]
  | @group left right ts e _ _ _ ih => exact ih fun t ht => hFits t (by simp [ht])
  | single _ ih | alone _ ih => exact ih hFits
  | @times ts us t op a b _ _ _ _ ihLeft ihRight | @plus ts us t op a b _ _ _ _ ihLeft ihRight =>
    rw [Expr.nameInfinity]
    exact .binary op (ihLeft fun t ht => hFits t (by simp [ht]))
      (ihRight fun t ht => hFits t (by simp [ht]))

/-- No word of any kind goes on into the text. -/
def Separated (rest : List Char) : Prop :=
  ∀ c ∈ rest.head?, isLetter c = false ∧ isDigit c = false

theorem Separated.stops {rest : List Char} (h : Separated rest) (kind : Token.Kind) :
    kind.Stops rest := by
  intro c hc
  obtain ⟨hLetter, hDigit⟩ := h c hc
  exact Token.Kind.grows_eq_false hLetter hDigit kind

theorem separated_cons {c : Char} (hLetter : isLetter c = false) (hDigit : isDigit c = false)
    (rest : List Char) : Separated (c :: rest) := by
  intro d hd
  obtain rfl : c = d := Option.some.inj hd
  exact ⟨hLetter, hDigit⟩

theorem spells_operation {ts us : List Token} {t : Token} {op : Operator} {a b : Expr}
    (hLeft : Spells .operand ts a) (hOp : t.operator? = some op) (hRight : Spells .operand us b) :
    Spells .sum (ts ++ t :: us) (.binary op a b) := by
  by_cases hAdditive : op.isAdditive = true
  · exact .plus (.alone (.single hLeft)) hOp hAdditive (.single hRight)
  · have hBinds : op.isMultiplicative = true := by simpa [Operator.isMultiplicative] using hAdditive
    exact .alone (.times (.single hLeft) hOp hBinds hRight)

theorem Scanner.exists_passes_mark {kind : Token.Kind} {word : List Char} (hFits : kind.Fits word)
    (hGrows : kind.grows = fun _ => false) (rest : List Char) (p : Position) :
    ∃ t : Token, t.kind = kind ∧ t.lexeme = String.ofList word ∧
      Scanner.Passes ⟨word ++ rest, p⟩ [t] ⟨rest, p.after word⟩ := by
  have hStops : kind.Stops rest := by
    intro c _
    rw [hGrows]
  exact ⟨_, rfl, rfl, Scanner.passes_word hFits hStops p⟩

/-- Whoever reads the text of an expression finds the tokens of the expression that it restores. -/
theorem Scanner.passes_render {e e' : Expr} (h : Restores e e') {rest : List Char}
    (hRest : Separated rest) (p : Position) :
    ∃ ts, Scanner.Passes ⟨e.render.toList ++ rest, p⟩ ts ⟨rest, p.after e.render.toList⟩ ∧
      Spells .operand ts e' := by
  induction h generalizing rest p with
  | @word e e' kind word hFits hText hSpells =>
    rw [hText, String.toList_ofList]
    exact ⟨_, Scanner.passes_word hFits (hRest.stops kind) p, hSpells p _⟩
  | @binary left left' right right' op _ _ ihLeft ihRight =>
    have hLeftMark : Token.Kind.openParen.Fits ['('] := rfl
    have hSymbol : Token.Kind.operator.Fits op.symbol.toList := ⟨op, rfl⟩
    have hRightMark : Token.Kind.closeParen.Fits [')'] := rfl
    have hBlank : isBlank ' ' = true := rfl
    have hSpace : ∀ text, Separated (' ' :: text) := separated_cons rfl rfl
    have hParen : ∀ text, Separated (')' :: text) := separated_cons rfl rfl
    have hText : (Expr.binary op left right).render.toList ++ rest = ['('] ++ (left.render.toList ++
        ' ' :: (op.symbol.toList ++ ' ' :: (right.render.toList ++ ([')'] ++ rest)))) := by
      simp [Expr.render]
    have hEnd : p.after (Expr.binary op left right).render.toList =
        ((((((p.after ['(']).after left.render.toList).advance ' ').after op.symbol.toList).advance
          ' ').after right.render.toList).after [')'] := by
      simp [Expr.render, Position.after_append]
    -- the text is passed part by part: a mark, an operand, a blank, a mark, a blank, an operand, a mark
    obtain ⟨opening, hOpening, _, hOpen⟩ := Scanner.exists_passes_mark hLeftMark rfl _ p
    obtain ⟨ts, hLeft, hSpellsLeft⟩ := ihLeft (hSpace _) _
    obtain ⟨t, hKind, hLexeme, hOperator⟩ := Scanner.exists_passes_mark hSymbol rfl _ _
    obtain ⟨us, hRight, hSpellsRight⟩ := ihRight (hParen rest) _
    obtain ⟨closing, hClosing, _, hClose⟩ := Scanner.exists_passes_mark hRightMark rfl rest _
    have hOp : t.operator? = some op := by
      rw [Token.operator?, if_pos hKind, hLexeme, String.ofList_toList, Operator.ofSymbol?_symbol]
    refine ⟨opening :: (ts ++ t :: us) ++ [closing], ?_,
      .group hOpening hClosing (spells_operation hSpellsLeft hOp hSpellsRight)⟩
    rw [hText, hEnd]
    have hPass := hOpen.trans <| hLeft.trans <| (Scanner.passes_blank hBlank _ _).trans <|
      hOperator.trans <| (Scanner.passes_blank hBlank _ _).trans <| hRight.trans hClose
    simpa using hPass

/-- Whoever reads texts of expressions with spaces between them finds one statement for each. -/
theorem Scanner.passes_joinTexts {body : List Expr}
    (h : ∀ e ∈ body, Restores e e.nameInfinity) (p : Position) :
    ∃ ts p', Scanner.Passes ⟨(joinTexts " " (Expr.renderAll body)).toList, p⟩ ts ⟨[], p'⟩ ∧
      SpellsAll ts (Expr.nameInfinityAll body) := by
  induction body generalizing p with
  | nil =>
    rw [Expr.renderAll, Expr.nameInfinityAll]
    exact ⟨[], p, Scanner.passes_nil _, .nil⟩
  | cons e body ih =>
    have hHead : Restores e e.nameInfinity := h e List.mem_cons_self
    rw [Expr.nameInfinityAll]
    cases body with
    | nil =>
      have hEnd : Separated [] := by simp [Separated]
      obtain ⟨ts, hPass, hSpells⟩ := Scanner.passes_render hHead hEnd p
      rw [List.append_nil] at hPass
      simp only [Expr.renderAll, joinTexts, Expr.nameInfinityAll]
      exact ⟨ts, _, hPass, Parser.spellsAll_single (.alone (.single hSpells))⟩
    | cons next body =>
      have hBlank : isBlank ' ' = true := rfl
      have hSpace : ∀ text, Separated (' ' :: text) := separated_cons rfl rfl
      have hText : (joinTexts " " (Expr.renderAll (e :: next :: body))).toList =
          e.render.toList ++ ' ' :: (joinTexts " " (Expr.renderAll (next :: body))).toList := by
        simp [Expr.renderAll, joinTexts]
      obtain ⟨ts, hFirst, hSpells⟩ := Scanner.passes_render hHead (hSpace _) p
      obtain ⟨us, p', hRest, hAll⟩ := ih (fun e' he' => h e' (List.mem_cons_of_mem e he')) _
      rw [hText]
      refine ⟨ts ++ ([] ++ us), p', hFirst.trans ((Scanner.passes_blank hBlank _ _).trans hRest), ?_⟩
      exact .cons (.alone (.single hSpells)) hAll

theorem parse_of_passes {text : String} {ts : List Token} {p : Position} {body : List Expr}
    (hPass : Scanner.Passes ⟨text.toList, .first⟩ ts ⟨[], p⟩) (hAll : SpellsAll ts body) :
    Program.parse text = .ok ⟨body⟩ := by
  rw [Program.parse, tokenize_of_passes hPass]
  exact (Parser.ofTokens_of_spellsAll hAll).2 _ rfl

theorem restores_of_spellsAll {ts : List Token} {body : List Expr} (h : SpellsAll ts body)
    (hFits : ∀ t ∈ ts, t.kind.Fits t.lexeme.toList) : ∀ e ∈ body, Restores e e.nameInfinity := by
  induction h with
  | nil => simp
  | @cons ts us e es hHead _ ih =>
    intro e' he'
    rcases List.mem_cons.mp he' with rfl | hRest
    · exact restores_of_spells hHead fun t ht => hFits t (by simp [ht])
    · exact ih (fun t ht => hFits t (by simp [ht])) e' hRest

theorem restores_of_parse {source : String} {p : Program} (h : Program.parse source = .ok p) :
    ∀ e ∈ p.body, Restores e e.nameInfinity := by
  obtain ⟨tokens, hTokens, hAll⟩ := Parser.exists_spellsAll_of_parse h
  refine restores_of_spellsAll hAll fun t ht => ?_
  obtain ⟨hMem, hEnd⟩ := List.mem_filter.mp ht
  exact tokenize_fits hTokens t hMem (by simpa using hEnd)

theorem Position.after_of_notMem {text : List Char} (h : '\n' ∉ text) (p : Position) :
    p.after text = ⟨p.line, p.column + .ofNat text.length⟩ := by
  induction text generalizing p with
  | nil => simp
  | cons c text ih =>
    obtain ⟨hHead, hRest⟩ := not_or.mp (fun hOr => h (List.mem_cons.mpr hOr))
    have hAdvance : p.advance c = ⟨p.line, p.column + 1⟩ := if_neg (Ne.symm hHead)
    have hOne : Int32.ofNat 1 = 1 := rfl
    rw [Position.after_cons, ih hRest, hAdvance, List.length_cons, Int32.ofNat_add, hOne,
      Int32.add_comm (Int32.ofNat text.length), Int32.add_assoc]

theorem Restores.newline_notMem {e e' : Expr} (h : Restores e e') : '\n' ∉ e.render.toList := by
  induction h with
  | word hFits hText _ =>
    rw [hText, String.toList_ofList]
    exact hFits.newline_notMem
  | @binary left left' right right' op _ _ ihLeft ihRight =>
    have hSymbol : '\n' ∉ op.symbol.toList := by
      cases op <;> decide
    simp [Expr.render, ihLeft, ihRight, hSymbol]

theorem parse_of_illegal {e e' : Expr} (h : Restores e e') {c : Char} {rest : List Char} {text : String}
    (hIllegal : isLegal c = false) (hText : text.toList = e.render.toList ++ c :: rest) :
    Program.parse text = .error (.scan ⟨⟨1, .ofNat (1 + e.render.length)⟩, c⟩) := by
  have hBehind : Separated (c :: rest) := by
    simp only [isLegal, Bool.or_eq_false_iff] at hIllegal
    exact separated_cons hIllegal.1.1.1 hIllegal.1.1.2 rest
  obtain ⟨ts, hPass, _⟩ := Scanner.passes_render h hBehind .first
  have hPosition : Position.first.after e.render.toList = ⟨1, .ofNat (1 + e.render.length)⟩ := by
    rw [Position.after_of_notMem h.newline_notMem, String.length_toList, Int32.ofNat_add]
    rfl
  have hTokens : tokenize text = .error ⟨⟨1, .ofNat (1 + e.render.length)⟩, c⟩ := by
    rw [tokenize, Scanner.ofText, hText, hPass #[], Scanner.tokensFrom_eq,
      Scanner.next_illegal hIllegal, hPosition]
  rw [Program.parse, hTokens]

mutual
theorem Expr.nameInfinity_eq_self (e : Expr)
    (h : ∀ x, .number x ∈ e.preorder → x.isInf = false) : e.nameInfinity = e := by
  have hChild : ∀ child ∈ e.children, ∀ x, .number x ∈ child.preorder → x.isInf = false :=
    fun child hMem x hx => h x (Expr.mem_preorder.mpr (.inr ⟨child, hMem, hx⟩))
  cases e with
  | number x =>
    have hFinite : x.isInf = false := h x (Expr.mem_preorder.mpr (.inl rfl))
    simp [Expr.nameInfinity, hFinite]
  | name id | text value | null => rw [Expr.nameInfinity]
  | program body => rw [Expr.nameInfinity, Expr.nameInfinityAll_eq_self body hChild]
  | binary op left right =>
    rw [Expr.nameInfinity, Expr.nameInfinity_eq_self left (hChild left (by simp [Expr.children])),
      Expr.nameInfinity_eq_self right (hChild right (by simp [Expr.children]))]
  | declare id value =>
    rw [Expr.nameInfinity, Expr.nameInfinity_eq_self value (hChild value (by simp [Expr.children]))]
  | call callee arguments =>
    rw [Expr.nameInfinity, Expr.nameInfinity_eq_self callee (hChild callee (by simp [Expr.children])),
      Expr.nameInfinityAll_eq_self arguments fun e he => hChild e (by simp [Expr.children, he])]
  | unary op operand =>
    rw [Expr.nameInfinity,
      Expr.nameInfinity_eq_self operand (hChild operand (by simp [Expr.children]))]
  | function id parameters body => rw [Expr.nameInfinity, Expr.nameInfinityAll_eq_self body hChild]

theorem Expr.nameInfinityAll_eq_self (es : List Expr)
    (h : ∀ e ∈ es, ∀ x, .number x ∈ e.preorder → x.isInf = false) :
    Expr.nameInfinityAll es = es := by
  cases es with
  | nil => rw [Expr.nameInfinityAll]
  | cons e es =>
    rw [Expr.nameInfinityAll, Expr.nameInfinity_eq_self e (h e List.mem_cons_self),
      Expr.nameInfinityAll_eq_self es fun e' he' => h e' (List.mem_cons_of_mem e he')]
end

/-- The statements of a parsed source, written with spaces between them, are parsed as the same
program up to infinite numbers; one statement alone is written that way by the program itself, and the
text of a longer program fails at its first statement mark. -/
theorem parse_spaced_display {source : String} {p : Program} (h : Program.parse source = .ok p) :
    Program.parse (joinTexts " " (p.body.map Expr.display)) = .ok p.nameInfinity ∧
      ((∀ x, .number x ∈ p.toExpr.preorder → x.isInf = false) → p.nameInfinity = p) ∧
      (p.body.length = 1 → p.display = joinTexts " " (p.body.map Expr.display)) ∧
      ∀ first second rest, p.body = first :: second :: rest →
        Program.parse p.display =
          .error (.scan ⟨⟨1, .ofNat (1 + first.display.length)⟩, ';'⟩) := by
  have hRestores := restores_of_parse h
  have hDisplay : p.display = joinTexts Expr.statementMark (Expr.renderAll p.body) := by
    rw [Program.display_eq, Program.toExpr, Expr.render]
  rw [← Expr.renderAll_eq_map]
  refine ⟨?_, ?_, ?_, ?_⟩
  · obtain ⟨ts, p', hPass, hAll⟩ := Scanner.passes_joinTexts hRestores .first
    exact parse_of_passes hPass hAll
  · intro hFinite
    have hBody : Expr.nameInfinityAll p.body = p.body := Expr.nameInfinityAll_eq_self p.body
      fun e he x hx => hFinite x (Expr.mem_preorder.mpr (.inr ⟨e, he, hx⟩))
    rw [Program.nameInfinity, hBody]
  · intro hOne
    obtain ⟨e, hBody⟩ := List.length_eq_one_iff.mp hOne
    rw [hDisplay, hBody, Expr.renderAll, Expr.renderAll, joinTexts, joinTexts]
  · intro first second rest hBody
    have hText : p.display.toList = first.render.toList ++
        ';' :: ' ' :: (joinTexts Expr.statementMark (Expr.renderAll (second :: rest))).toList := by
      rw [hDisplay, hBody]
      simp [Expr.renderAll, joinTexts, Expr.statementMark]
    rw [Expr.display_eq]
    exact parse_of_illegal (hRestores first (by simp [hBody])) rfl hText

/-- A number that overflows comes back as a name. -/
theorem parse_spaced_display_overflow :
    Program.parse (String.ofList (List.replicate 310 '9' ++ [' ', 'x'])) =
        .ok ⟨[.number (Number.ofCode false Number.infinity), .name "x"]⟩ ∧
      Program.parse "inf x" = .ok ⟨[.name "inf", .name "x"]⟩ ∧
      Program.parse "inf; x" = .error (.scan ⟨⟨1, 4⟩, ';'⟩) := by
  have hInf : (Number.ofCode false Number.infinity).isInf = true := by decide +kernel
  have hText : Number.render (Number.ofCode false Number.infinity) = "inf" := by decide +kernel
  have hCode : Number.nearest (Number.digitsValue (List.replicate 310 '9')) 1 = Number.infinity := by
    decide +kernel
  have hDigits : Token.Kind.number.Fits (List.replicate 310 '9') := by
    refine ⟨List.cons_ne_nil _ _, fun c hc => ?_⟩
    rw [List.eq_of_mem_replicate hc]
    rfl
  have hName : Token.Kind.identifier.Fits ['x'] := by
    exact ⟨by simp, List.all_eq_true.mp rfl, by simp, by simp⟩
  have hBlank : isBlank ' ' = true := rfl
  have hSpace : Separated [' ', 'x'] := separated_cons rfl rfl _
  have hEnd : Separated [] := by simp [Separated]
  have hRead := Number.read?_digits hDigits.1 hDigits.2
  rw [hCode] at hRead
  have hPass := (Scanner.passes_word hDigits (hSpace.stops _) .first).trans <|
    (Scanner.passes_blank hBlank ['x'] _).trans <| Scanner.passes_word hName (hEnd.stops _) _
  have hParse : Program.parse (String.ofList (List.replicate 310 '9' ++ [' ', 'x'])) =
        .ok ⟨[.number (Number.ofCode false Number.infinity), .name "x"]⟩ := by
    rw [← String.toList_ofList (l := List.replicate 310 '9' ++ [' ', 'x'])] at hPass
    exact parse_of_passes hPass (.cons (.alone (.single (.number rfl hRead)))
      (Parser.spellsAll_single (.alone (.single (.name rfl)))))
  obtain ⟨hSpaced, _, _, hMark⟩ := parse_spaced_display hParse
  refine ⟨hParse, ?_, ?_⟩
  · simpa [joinTexts, Expr.render, hText, Program.nameInfinity, Expr.nameInfinityAll,
      Expr.nameInfinity, hInf] using hSpaced
  · have hColumn : Int32.ofNat (1 + "inf".length) = 4 := by decide
    have hFails := hMark _ _ _ rfl
    rw [Expr.display_eq, Expr.render, hText, hColumn] at hFails
    simpa [joinTexts, Expr.render, Expr.renderAll, hText, Program.toExpr,
      Expr.statementMark] using hFails

end Reckoner
