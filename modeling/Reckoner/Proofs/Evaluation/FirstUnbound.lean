import Mathlib
import Reckoner.Proofs.Evaluation.Faults
import Reckoner.Proofs.Parsing.Recognition
import Reckoner.Proofs.Scope.Chain
import Reckoner.Proofs.Session.ReadLoop

/-! # The first name without a value

The parser keeps the names of a source in their order, and evaluation meets them in that order. What a
parsed source comes to is therefore decided by its tokens: it fails at the first name that is bound in
no frame of the chain, and for no other reason.
-/
namespace Reckoner
set_option autoImplicit false

open Grammar EvalError

/-- The faults of a token read on its own. -/
def Token.faults (look : Lookup) (t : Token) : List EvalError :=
  if t.kind = .identifier then (Expr.name t.lexeme).faults look else []

theorem Token.faults_of_operator {look : Lookup} {t : Token} {op : Operator}
    (h : t.operator? = some op) : t.faults look = [] := by
  unfold Token.operator? at h
  split at h
  · rename_i hKind
    simp [Token.faults, hKind]
  · cases h

/-- A phrase has the faults of its tokens, one behind the other. -/
theorem faults_of_spells (look : Lookup) {tier : Tier} {ts : List Token} {e : Expr}
    (h : Spells tier ts e) : e.faults look = ts.flatMap (Token.faults look) := by
  induction h with
  | name hKind => simp [Token.faults, hKind]
  | null hKind => simp [Token.faults, hKind, Expr.faults]
  | number hKind _ => simp [Token.faults, hKind, Expr.faults]
  | @group left right ts e hLeft hRight _ ih =>
    have hOpen : left.faults look = [] := by simp [Token.faults, hLeft]
    have hClose : right.faults look = [] := by simp [Token.faults, hRight]
    simp [ih, hOpen, hClose]
  | single _ ih | alone _ ih => exact ih
  | times _ hOp _ _ ihLeft ihRight | plus _ hOp _ _ ihLeft ihRight =>
    rw [Expr.faults, ihLeft, ihRight, List.flatMap_append, List.flatMap_cons,
      Token.faults_of_operator hOp, List.nil_append]

theorem faultsAll_of_spellsAll (look : Lookup) {ts : List Token} {body : List Expr}
    (h : SpellsAll ts body) : Expr.faultsAll look body = ts.flatMap (Token.faults look) := by
  induction h with
  | nil => rw [Expr.faultsAll, List.flatMap_nil]
  | cons hHead _ ih => rw [Expr.faultsAll, faults_of_spells look hHead, ih, List.flatMap_append]

theorem flatMap_faults_filter (look : Lookup) (tokens : List Token) :
    (tokens.filter fun t => !t.isEnd).flatMap (Token.faults look) =
      tokens.flatMap (Token.faults look) := by
  induction tokens with
  | nil => rfl
  | cons t tokens ih =>
    by_cases hEnd : t.isEnd = true
    · have hKind : t.kind = .endOfInput := by simpa [Token.isEnd] using hEnd
      have hNone : t.faults look = [] := by simp [Token.faults, hKind]
      rw [List.filter_cons_of_neg (by simp [hEnd]), ih, List.flatMap_cons, hNone, List.nil_append]
    · rw [List.filter_cons_of_pos (by simp [hEnd]), List.flatMap_cons, List.flatMap_cons, ih]

theorem decides_evaluate_of_parse {source : String} {p : Program} (h : Program.parse source = .ok p) :
    ∃ tokens, tokenize source = .ok tokens ∧
      ∀ look : Lookup, Decides (tokens.flatMap (Token.faults look)) (p.toExpr.evaluate look).result := by
  obtain ⟨tokens, hTokens, hAll⟩ := Parser.exists_spellsAll_of_parse h
  refine ⟨tokens, hTokens, fun look => ?_⟩
  have hDecides := Expr.decides_eval look p.toExpr
  rw [Program.toExpr, Expr.faults, faultsAll_of_spellsAll look hAll, flatMap_faults_filter] at hDecides
  rw [Expr.evaluate_eq]
  exact hDecides

/-- `t` is the first of the tokens that has the property. -/
def FirstToken (P : Token → Prop) (tokens : List Token) (t : Token) : Prop :=
  ∃ before after, tokens = before ++ t :: after ∧ P t ∧ ∀ u ∈ before, ¬P u

theorem exists_firstToken {P : Token → Prop} {tokens : List Token} (h : ∃ t ∈ tokens, P t) :
    ∃ t, FirstToken P tokens t := by
  induction tokens with
  | nil =>
    obtain ⟨t, ht, _⟩ := h
    cases ht
  | cons u tokens ih =>
    by_cases hHead : P u
    · exact ⟨u, [], tokens, rfl, hHead, by simp⟩
    · have hRest : ∃ t ∈ tokens, P t := by
        obtain ⟨t, ht, hP⟩ := h
        rcases List.mem_cons.mp ht with rfl | hMem
        · exact absurd hP hHead
        · exact ⟨t, hMem, hP⟩
      obtain ⟨t, before, after, rfl, hP, hBefore⟩ := ih hRest
      refine ⟨t, u :: before, after, rfl, hP, ?_⟩
      intro v hv
      rcases List.mem_cons.mp hv with rfl | hMem
      · exact hHead
      · exact hBefore v hMem

/-- The outcome of tokens: a failure at the first one with the property, or else a value. -/
structure FailsAtFirst {ε : Type} (P : Token → Prop) (fault : Token → ε) (tokens : List Token)
    (result : Except ε Value) : Prop where
  fails_iff : (∃ e, result = .error e) ↔ ∃ t ∈ tokens, P t
  error_iff : ∀ e, result = .error e ↔ ∃ t, FirstToken P tokens t ∧ e = fault t

namespace FailsAtFirst

variable {ε : Type} {P : Token → Prop} {fault : Token → ε} {tokens : List Token}
  {result : Except ε Value}

theorem intro (hFails : ∀ t, FirstToken P tokens t → result = .error (fault t))
    (hSucceeds : (∀ t ∈ tokens, ¬P t) → ∃ value, result = .ok value) :
    FailsAtFirst P fault tokens result := by
  have hExists : ∀ e, result = .error e → ∃ t ∈ tokens, P t := by
    intro e hError
    refine Classical.byContradiction fun hNone => ?_
    obtain ⟨value, hValue⟩ := hSucceeds fun t ht hP => hNone ⟨t, ht, hP⟩
    rw [hError] at hValue
    cases hValue
  constructor
  · constructor
    · rintro ⟨e, hError⟩
      exact hExists e hError
    · intro hSome
      obtain ⟨t, hFirst⟩ := exists_firstToken hSome
      exact ⟨fault t, hFails t hFirst⟩
  · intro e
    constructor
    · intro hError
      obtain ⟨t, hFirst⟩ := exists_firstToken (hExists e hError)
      rw [hFails t hFirst] at hError
      exact ⟨t, hFirst, (Except.error.inj hError).symm⟩
    · rintro ⟨t, hFirst, rfl⟩
      exact hFails t hFirst

theorem error_of_first (h : FailsAtFirst P fault tokens result) {t : Token}
    (hFirst : FirstToken P tokens t) : result = .error (fault t) :=
  (h.error_iff (fault t)).mpr ⟨t, hFirst, rfl⟩

theorem exists_ok (h : FailsAtFirst P fault tokens result) (hAll : ∀ t ∈ tokens, ¬P t) :
    ∃ value, result = .ok value := by
  cases hResult : result with
  | ok value => exact ⟨value, rfl⟩
  | error e =>
    obtain ⟨t, ht, hP⟩ := h.fails_iff.mp ⟨e, hResult⟩
    exact absurd hP (hAll t ht)

theorem mapError {ε' : Type} (h : FailsAtFirst P fault tokens result) (wrap : ε → ε') :
    FailsAtFirst P (fun t => wrap (fault t)) tokens (result.mapError wrap) := by
  apply intro
  · intro t hFirst
    rw [h.error_of_first hFirst]
    rfl
  · intro hAll
    obtain ⟨value, rfl⟩ := h.exists_ok hAll
    exact ⟨value, rfl⟩

end FailsAtFirst

/-- The token is a name that no frame in sight of `f` binds. -/
def Store.Lacks (s : Store) (f : Nat) (t : Token) : Prop :=
  t.kind = .identifier ∧ s.Unbound f t.lexeme

theorem Token.faults_of_lacks {s : Store} {f : Nat} {t : Token} (h : s.Lacks f t) :
    t.faults (s.get f) = [.scope (.undefined t.lexeme)] := by
  rw [Token.faults, if_pos h.1, Expr.faults, Store.get_of_unbound h.2]

theorem Token.faults_of_not_lacks {s : Store} {f : Nat} {t : Token} (h : ¬s.Lacks f t) :
    t.faults (s.get f) = [] := by
  by_cases hKind : t.kind = .identifier
  · obtain ⟨value, hValue⟩ := Store.exists_get_of_not_unbound fun hUnbound => h ⟨hKind, hUnbound⟩
    rw [Token.faults, if_pos hKind, Expr.faults, hValue]
  · rw [Token.faults, if_neg hKind]

theorem failsAtFirst_of_decides {s : Store} {f : Nat} {tokens : List Token}
    {result : Except EvalError Value}
    (h : Decides (tokens.flatMap (Token.faults (s.get f))) result) :
    FailsAtFirst (s.Lacks f) (fun t => .scope (.undefined t.lexeme)) tokens result := by
  apply FailsAtFirst.intro
  · rintro t ⟨before, after, rfl, hLacks, hBefore⟩
    have hNone : before.flatMap (Token.faults (s.get f)) = [] :=
      List.flatMap_eq_nil_iff.mpr fun u hu => Token.faults_of_not_lacks (hBefore u hu)
    rw [List.flatMap_append, hNone, List.nil_append, List.flatMap_cons,
      Token.faults_of_lacks hLacks] at h
    exact h.1 _ _ rfl
  · intro hAll
    exact h.2 (List.flatMap_eq_nil_iff.mpr fun t ht => Token.faults_of_not_lacks (hAll t ht))

namespace Session

theorem unbound_start (ast : Bool) (name : String) :
    (start ast).store.Unbound (start ast).root name := by
  intro g _
  have hFind : (Store.empty.push none).find? g name = none := by
    rw [Store.find?_push]
    simp [Store.find?, Store.empty]
  have hNone : (start ast).store.find? g name = none := hFind
  rw [Store.contains, hNone]
  rfl

theorem lacks_start (ast : Bool) :
    (start ast).store.Lacks (start ast).root = fun t => t.kind = .identifier := by
  funext t
  exact propext ⟨fun h => h.1, fun h => ⟨h, unbound_start ast t.lexeme⟩⟩

theorem result_evaluateLine {source : String} {p : Program} (h : Program.parse source = .ok p)
    (s : Session) :
    (s.evaluateLine source).result =
      (p.toExpr.evaluate (s.store.get s.root)).result.mapError .eval := by
  rw [result_evaluateLine_eq, h]

end Session

/-- What a dialogue says to a line that parses: behind the line's tree, if trees are shown, it complains of
the first name, or it prints the value. -/
theorem Dialogue.answer_of_failsAtFirst {source : String} {p : Program} {tokens : List Token}
    {ast : Bool} (h : Program.parse source = .ok p)
    (hFails : FailsAtFirst (fun t => t.kind = .identifier)
      (fun t => .eval (.scope (.undefined t.lexeme))) tokens
      ((Session.start ast).evaluateLine source).result) :
    ∃ shown : Array Effect,
      outputOf shown.toList = (if ast then p.display ++ "\n" else "") ∧
      complaintsOf shown.toList = "" ∧ takenBy shown.toList = 0 ∧
      (∀ t, FirstToken (fun u => u.kind = .identifier) tokens t →
        let message := "Undefined variable '" ++ t.lexeme ++ "'"
        answer (.start ast) source = shown ++
          #[.record (.lineFailed message), .complain ("Error: " ++ message ++ "\n")]) ∧
      ((∀ t ∈ tokens, t.kind ≠ .identifier) → ∃ value,
        ((Session.start ast).evaluateLine source).result = .ok value ∧
          answer (.start ast) source = shown ++ #[.print (value.render ++ "\n")]) := by
  obtain ⟨_, hOutput, hComplaints, hTaken⟩ := Session.evaluateLine_start ast source
  rw [Session.treeText, h] at hOutput
  refine ⟨_, hOutput, hComplaints, hTaken, ?_, ?_⟩
  · intro t hFirst message
    have hMessage : (LineError.eval (.scope (.undefined t.lexeme))).message = message := rfl
    simp only [answer, hFails.error_of_first hFirst, hMessage]
    rfl
  · intro hNone
    obtain ⟨value, hValue⟩ := hFails.exists_ok hNone
    refine ⟨value, hValue, ?_⟩
    simp only [answer, hValue]
    rfl

/-- A parsed source fails if and only if one of its names is bound in no frame of the chain, and then
it is the first such name that is reported. Sessions bind nothing, so there any name is one, for every
line that a dialogue answers or that a script comes to. The dialogue complains of it and goes on; a line
without names is answered with its value. -/
theorem evaluate_fails_at_first_unbound {source : String} {p : Program}
    (h : Program.parse source = .ok p) :
    ∃ tokens, tokenize source = .ok tokens ∧
      (∀ (store : Store) (f : Nat),
        FailsAtFirst (store.Lacks f) (fun t => .scope (.undefined t.lexeme)) tokens
          (p.toExpr.evaluate (store.get f)).result) ∧
      (∀ ast : Bool,
        FailsAtFirst (fun t => t.kind = .identifier) (fun t => .eval (.scope (.undefined t.lexeme)))
          tokens ((Session.start ast).evaluateLine source).result) ∧
      (∀ (settings : Settings) (input line : List UInt8) (front rest : List (List UInt8)),
        Text.SplitAfter (· == 10) input (front ++ line :: rest) →
        (∀ l ∈ front, ∃ s, Dialogue.Question l s) → Dialogue.Question line source →
        ∃ shown : Array Effect,
          outputOf shown.toList = (if settings.ast then p.display ++ "\n" else "") ∧
          complaintsOf shown.toList = "" ∧ takenBy shown.toList = 0 ∧
          (∀ t, FirstToken (fun u => u.kind = .identifier) tokens t →
            let message := "Undefined variable '" ++ t.lexeme ++ "'"
            Dialogue.Replies settings input front line rest (shown ++
              #[.record (.lineFailed message), .complain ("Error: " ++ message ++ "\n")])) ∧
          ((∀ t ∈ tokens, t.kind ≠ .identifier) → ∃ value,
            ((Session.start settings.ast).evaluateLine source).result = .ok value ∧
              Dialogue.Replies settings input front line rest
                (shown ++ #[.print (value.render ++ "\n")]))) ∧
      ∀ (settings : Settings) (path text : String) (front rest : List (List Char)),
        Text.fileLines text.toList = front ++ source.toList :: rest →
        Text.isBlankLine source.toList = false →
        (∀ l ∈ front, Script.Passed (.start settings.ast) l) →
        (∀ t, FirstToken (fun u => u.kind = .identifier) tokens t →
          (Script.run settings path text).result =
            .error (.inFile path (front.length + 1) (.eval (.scope (.undefined t.lexeme))))) ∧
        ((∀ t ∈ tokens, t.kind ≠ .identifier) →
          ∃ effects, Script.run settings path text =
            Script.proceed (.start settings.ast) path rest (front.length + 2) effects) := by
  obtain ⟨tokens, hTokens, hDecides⟩ := decides_evaluate_of_parse h
  have hChain : ∀ (store : Store) (f : Nat), FailsAtFirst (store.Lacks f)
      (fun t => .scope (.undefined t.lexeme)) tokens (p.toExpr.evaluate (store.get f)).result :=
    fun store f => failsAtFirst_of_decides (hDecides (store.get f))
  have hLine : ∀ ast : Bool, FailsAtFirst (fun t => t.kind = .identifier)
      (fun t => .eval (.scope (.undefined t.lexeme))) tokens
      ((Session.start ast).evaluateLine source).result := by
    intro ast
    rw [Session.result_evaluateLine h, ← Session.lacks_start ast]
    exact (hChain _ _).mapError LineError.eval
  refine ⟨tokens, hTokens, hChain, hLine, ?_, ?_⟩
  · intro settings input line front rest hSplit hFront hQuestion
    have hReplies := Dialogue.replies_answer settings hSplit hFront hQuestion
    obtain ⟨shown, hTree, hQuiet, hTaken, hError, hValue⟩ :=
      Dialogue.answer_of_failsAtFirst h (hLine settings.ast)
    refine ⟨shown, hTree, hQuiet, hTaken, ?_, ?_⟩
    · intro t hFirst message
      rw [hError t hFirst] at hReplies
      exact hReplies
    · intro hNone
      obtain ⟨value, hResult, hAnswer⟩ := hValue hNone
      rw [hAnswer] at hReplies
      exact ⟨value, hResult, hReplies⟩
  · intro settings path text front rest hLines hBlank hFront
    have hOutcome := hLine settings.ast
    rw [← source.ofList_toList] at hOutcome
    constructor
    · intro t hFirst
      exact Script.result_run_of_error path hLines hFront hBlank (hOutcome.error_of_first hFirst)
    · intro hNone
      exact Script.exists_run_passed path hLines hFront (.inr (hOutcome.exists_ok hNone))

/-- Where the chain binds the first name, the second one is at fault. In a dialogue it is the first one, and
the line behind is still asked for. -/
theorem evaluate_fails_at_first_unbound_chain :
    Program.parse "null + x y" = .ok ⟨[.binary .add .null (.name "x"), .name "y"]⟩ ∧
      ((Expr.program [.binary .add .null (.name "x"), .name "y"]).evaluate
        ((((Store.empty.push none).bind 0 "x" .null).push (some 0)).get 1)).result =
          .error (.scope (.undefined "y")) ∧
      ((Session.start false).evaluateLine "null + x y").result =
        .error (.eval (.scope (.undefined "x"))) ∧
      (∃ shown : Array Effect, outputOf shown.toList = "" ∧ complaintsOf shown.toList = "" ∧
        Dialogue.Replies {} (Text.encode "null\nnull + x y\r\n1") [Text.encode "null\n"]
          (Text.encode "null + x y\r\n") [Text.encode "1"]
          (shown ++ #[.record (.lineFailed "Undefined variable 'x'"),
            .complain "Error: Undefined variable 'x'\n"])) ∧
      (Script.run {} "lines" "null\nnull + x y").result =
        .error (.inFile "lines" 2 (.eval (.scope (.undefined "x")))) := by
  let first : List Token := [⟨.null, "null", ⟨1, 1⟩, ⟨1, 5⟩⟩, ⟨.operator, "+", ⟨1, 6⟩, ⟨1, 7⟩⟩]
  let x : Token := ⟨.identifier, "x", ⟨1, 8⟩, ⟨1, 9⟩⟩
  let y : Token := ⟨.identifier, "y", ⟨1, 10⟩, ⟨1, 11⟩⟩
  let last : Token := .endAt ⟨1, 11⟩
  let store : Store := ((Store.empty.push none).bind 0 "x" .null).push (some 0)
  have hParse : Program.parse "null + x y" =
      .ok ⟨[.binary .add .null (.name "x"), .name "y"]⟩ := by cbv
  have hTokens : tokenize "null + x y" = .ok (first ++ [x, y, last]) := by cbv
  have hLeftmost : FirstToken (fun t => t.kind = .identifier) (first ++ [x, y, last]) x :=
    ⟨first, [y, last], rfl, rfl, by simp [first]⟩
  have hLacking : FirstToken (store.Lacks 1) (first ++ [x, y, last]) y := by
    refine ⟨first ++ [x], [last], rfl, ⟨rfl, ?_⟩, ?_⟩
    · intro g _
      have hFind : store.find? g "y" = none := by
        rw [Store.find?_push, Store.find?_bind _ _ _ _ _ _ (by decide), Store.find?_push]
        simp [Store.find?, Store.empty]
      simp [Store.contains, y, hFind]
    · have hSees : store.Sees 1 0 := .outward (by cbv) (.here 0)
      have hBinds : store.contains 0 "x" = true := by cbv
      have hBound : ¬store.Unbound 1 "x" := by
        intro hUnbound
        rw [hUnbound 0 hSees] at hBinds
        cases hBinds
      simp [first, x, Store.Lacks, hBound]
  obtain ⟨tokens, hTokens', hChain, hLine, hDialogue, hScript⟩ :=
    evaluate_fails_at_first_unbound hParse
  obtain rfl := Except.ok.inj (hTokens.symm.trans hTokens')
  refine ⟨hParse, (hChain store 1).error_of_first hLacking, (hLine false).error_of_first hLeftmost,
    ?_, ?_⟩
  · have hPieces : Text.pieces (· == 10) (Text.encode "null\nnull + x y\r\n1") =
        [Text.encode "null\n"] ++ Text.encode "null + x y\r\n" :: [Text.encode "1"] := by cbv
    have hSplit := Text.splitAfter_pieces (· == 10) (Text.encode "null\nnull + x y\r\n1")
    rw [hPieces] at hSplit
    have hFront : ∀ l ∈ [Text.encode "null\n"], ∃ s, Dialogue.Question l s := by
      intro l hl
      obtain rfl := List.mem_singleton.mp hl
      exact ⟨"null", Dialogue.turn_eq_answer_iff.mp (by cbv)⟩
    have hQuestion : Dialogue.Question (Text.encode "null + x y\r\n") "null + x y" :=
      Dialogue.turn_eq_answer_iff.mp (by cbv)
    obtain ⟨shown, hTree, hQuiet, _, hError, _⟩ := hDialogue {} _ _ _ _ hSplit hFront hQuestion
    exact ⟨shown, hTree, hQuiet, hError x hLeftmost⟩
  · have hPassed : Script.Passed (.start false) ['n', 'u', 'l', 'l'] := .inr ⟨.null, by cbv⟩
    exact (hScript {} _ _ [['n', 'u', 'l', 'l']] [] (by cbv) (by cbv) (by simpa using hPassed)).1 x
      hLeftmost

end Reckoner
