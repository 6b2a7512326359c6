import Reckoner.Expr.Printer

/-! # Printing from a stack

The text of a tree is laid down by one equation for each form, and these equations leave only one choice.
Printing does not follow them by recursion: it takes the topmost piece from a stack, writes a text at
once, and puts the pieces of a tree back on the stack, the last one first. The stack may grow on the way,
but the trees on it get smaller, so that it comes to be empty; what has been written by then is the text
of every piece that was on it, from the top down.
-/
namespace Reckoner
set_option autoImplicit false

/-- The equations for the text of each form. -/
structure Expr.IsText (text : Expr → String) : Prop where
  program : ∀ body, text (.program body) = "; ".intercalate (body.map text)
  name : ∀ id, text (.name id) = id
  number : ∀ x, text (.number x) = Number.render x
  quoted : ∀ value, text (.text value) = "\"" ++ value ++ "\""
  null : text .null = "null"
  binary : ∀ op left right,
    text (.binary op left right) = "(" ++ text left ++ " " ++ op.symbol ++ " " ++ text right ++ ")"
  declare : ∀ id value, text (.declare id value) = "var " ++ id ++ " = " ++ text value
  call : ∀ callee arguments,
    text (.call callee arguments) = text callee ++ "(" ++ ", ".intercalate (arguments.map text) ++ ")"
  unary : ∀ op operand, text (.unary op operand) = "(" ++ op ++ text operand ++ ")"
  function : ∀ id parameters body, text (.function id parameters body) =
    "fn " ++ id ++ "(" ++ ", ".intercalate parameters ++ ") \x7b " ++
      "; ".intercalate (body.map text) ++ " \x7d"

theorem joinTexts_eq_intercalate (mark : String) (texts : List String) :
    joinTexts mark texts = mark.intercalate texts := by
  induction texts with
  | nil => simp [joinTexts]
  | cons text rest ih =>
    cases rest with
    | nil => simp [joinTexts]
    | cons next rest =>
      rw [joinTexts, ih]
      · rw [String.intercalate_cons_cons]
      · simp

mutual
theorem Expr.IsText.eq_render {text : Expr → String} (h : IsText text) (e : Expr) :
    text e = e.render := by
  cases e with
  | program body => rw [h.program, h.map_eq_renderAll body, render, joinTexts_eq_intercalate,
      statementMark]
  | name id => rw [h.name, render]
  | number x => rw [h.number, render]
  | text value => rw [h.quoted, render]
  | null => rw [h.null, render]
  | binary op left right => rw [h.binary, h.eq_render left, h.eq_render right, render]
  | declare id value => rw [h.declare, h.eq_render value, render]
  | call callee arguments =>
    rw [h.call, h.eq_render callee, h.map_eq_renderAll arguments, render, joinTexts_eq_intercalate,
      listMark]
  | unary op operand => rw [h.unary, h.eq_render operand, render]
  | function id parameters body =>
    rw [h.function, h.map_eq_renderAll body, render, joinTexts_eq_intercalate,
      joinTexts_eq_intercalate, listMark, statementMark]

theorem Expr.IsText.map_eq_renderAll {text : Expr → String} (h : IsText text) (es : List Expr) :
    es.map text = renderAll es := by
  cases es with
  | nil => rw [renderAll, List.map_nil]
  | cons e rest => rw [renderAll, List.map_cons, h.eq_render e, h.map_eq_renderAll rest]
end

theorem Expr.isText_display : IsText display where
  program body := by
    rw [display_eq, render, joinTexts_eq_intercalate, renderAll_eq_map, statementMark]
  name id := by rw [display_eq, render]
  number x := by rw [display_eq, render]
  quoted value := by rw [display_eq, render]
  null := by rw [display_eq, render]
  binary op left right := by rw [display_eq, render, display_eq, display_eq]
  declare id value := by rw [display_eq, render, display_eq]
  call callee arguments := by
    rw [display_eq, render, joinTexts_eq_intercalate, renderAll_eq_map, listMark, display_eq]
  unary op operand := by rw [display_eq, render, display_eq]
  function id parameters body := by
    rw [display_eq, render, joinTexts_eq_intercalate, joinTexts_eq_intercalate, renderAll_eq_map,
      listMark, statementMark]

namespace Piece

def pushAll (pieces stack : List Piece) : List Piece :=
  pieces.foldl (fun stack piece => piece :: stack) stack

/-- Puts a piece on a stack, and a mark on it unless it is the first one of a list. -/
def pushMarked (mark : String) (stack : List Piece) (item : Piece × Nat) : List Piece :=
  if item.2 > 0 then text mark :: item.1 :: stack else item.1 :: stack

/-- Puts pieces on a stack from the last one to the first, with marks between them. -/
def pushWithMarks (mark : String) (pieces stack : List Piece) : List Piece :=
  pieces.zipIdx.reverse.foldl (pushMarked mark) stack

theorem join_cons (mark : String) (piece : Piece) (rest : List Piece) :
    join mark (piece :: rest) = piece :: rest.flatMap fun next => [text mark, next] := by
  induction rest generalizing piece with
  | nil => rfl
  | cons next rest ih =>
    rw [join, ih, List.flatMap_cons]
    · rfl
    · exact List.cons_ne_nil next rest

theorem foldr_pushMarked (mark : String) (stack rest : List Piece) {k : Nat} (hk : 0 < k) :
    (rest.zipIdx k).foldr (fun item stack => pushMarked mark stack item) stack =
      (rest.flatMap fun next => [text mark, next]) ++ stack := by
  induction rest generalizing k with
  | nil => rfl
  | cons next rest ih =>
    rw [List.zipIdx_cons, List.foldr_cons, ih (Nat.succ_pos k), pushMarked, if_pos hk,
      List.flatMap_cons]
    rfl

theorem pushWithMarks_eq (mark : String) (pieces stack : List Piece) :
    pushWithMarks mark pieces stack = join mark pieces ++ stack := by
  rw [pushWithMarks, List.foldl_reverse]
  cases pieces with
  | nil => rfl
  | cons piece rest =>
    rw [List.zipIdx_cons, List.foldr_cons, foldr_pushMarked mark stack rest (Nat.succ_pos 0), join_cons]
    rfl

/-- What a turn makes of the topmost piece: the stack that it leaves, and the text written so far. What
goes on the stack first is written last. -/
def turn (rest : List Piece) (done : String) : Piece → List Piece × String
  | text s => (rest, done ++ s)
  | tree (.program body) => (pushWithMarks "; " (body.map tree) rest, done)
  | tree (.name id) => (rest, done ++ id)
  | tree (.number x) => (rest, done ++ Number.render x)
  | tree (.text value) => (rest, done ++ ("\"" ++ value ++ "\""))
  | tree .null => (rest, done ++ "null")
  | tree (.binary op left right) =>
    (pushAll [text ")", tree right, text " ", text op.symbol, text " ", tree left, text "("] rest, done)
  | tree (.declare id value) => (pushAll [tree value, text " = ", text id, text "var "] rest, done)
  | tree (.call callee arguments) =>
    let behind := pushAll [text ")"] rest
    let listed := pushWithMarks ", " (arguments.map tree) behind
    (pushAll [text "(", tree callee] listed, done)
  | tree (.unary op operand) => (pushAll [text ")", tree operand, text op, text "("] rest, done)
  | tree (.function id parameters body) =>
    let behind := pushAll [text " \x7d"] rest
    let stated := pushWithMarks "; " (body.map tree) behind
    let opened := pushAll [text ") \x7b "] stated
    let listed := pushWithMarks ", " (parameters.map text) opened
    (pushAll [text "(", text id, text "fn "] listed, done)

/-- A tree is written at once, or its pieces come to lie on the stack in the order in which they are
written. -/
theorem turn_tree (e : Expr) (rest : List Piece) (done : String) :
    turn rest done (tree e) = (rest, done ++ e.render) ∨
      turn rest done (tree e) = (ofExpr e ++ rest, done) := by
  cases e with
  | name id => left; rw [turn, Expr.render]
  | number x => left; rw [turn, Expr.render]
  | text value => left; rw [turn, Expr.render]
  | null => left; rw [turn, Expr.render]
  | program body => right; simp [turn, ofExpr, pushWithMarks_eq, Expr.statementMark]
  | binary op left right => right; simp [turn, ofExpr, pushAll]
  | declare id value => right; simp [turn, ofExpr, pushAll]
  | call callee arguments => right; simp [turn, ofExpr, pushAll, pushWithMarks_eq, Expr.listMark]
  | unary op operand => right; simp [turn, ofExpr, pushAll]
  | function id parameters body =>
    right
    simp [turn, ofExpr, pushAll, pushWithMarks_eq, Expr.listMark, Expr.statementMark]

theorem write_turn (piece : Piece) (rest : List Piece) (done : String) :
    write (turn rest done piece).1 (turn rest done piece).2 = write (piece :: rest) done := by
  rw [write_eq_append, write_eq_append]
  cases piece with
  | text s => rw [turn, contents, String.append_assoc]
  | tree e =>
    rcases turn_tree e rest done with h | h
    · rw [h, contents, String.append_assoc]
    · rw [h, contents_append, contents_ofExpr, contents]

theorem turn_lt (piece : Piece) (rest : List Piece) (done : String) :
    Prod.Lex (· < ·) (· < ·)
      (weight (turn rest done piece).1, (turn rest done piece).1.length)
      (weight (piece :: rest), (piece :: rest).length) := by
  -- a tree may leave a longer stack, but with smaller trees on it
  cases piece with
  | text s =>
    right
    exact Nat.lt_succ_self rest.length
  | tree e =>
    left
    have hPieces := weight_ofExpr e
    rcases turn_tree e rest done with h | h
    · simp only [h, weight]
      omega
    · simp only [h, weight, weight_append]
      omega

/-- The runs from a stack and a written text: how many turns are taken until the stack is empty, and
the text written by then. -/
inductive Runs : List Piece → String → Nat → String → Prop
  | stop (done : String) : Runs [] done 0 done
  | next {piece : Piece} {rest : List Piece} {done final : String} {n : Nat}
      (later : Runs (turn rest done piece).1 (turn rest done piece).2 n final) :
      Runs (piece :: rest) done (n + 1) final

theorem exists_runs_write (stack : List Piece) (done : String) :
    ∃ n, Runs stack done n (write stack done) := by
  match stack with
  | [] =>
    rw [write]
    exact ⟨0, .stop done⟩
  | piece :: rest =>
    obtain ⟨n, hLater⟩ := exists_runs_write (turn rest done piece).1 (turn rest done piece).2
    rw [write_turn] at hLater
    exact ⟨n + 1, .next hLater⟩
termination_by (weight stack, stack.length)
decreasing_by exact turn_lt piece rest done

theorem Runs.unique {stack : List Piece} {done final final' : String} {n n' : Nat}
    (h : Runs stack done n final) (h' : Runs stack done n' final') : n = n' ∧ final = final' := by
  induction h generalizing n' with
  | stop done =>
    cases h'
    exact ⟨rfl, rfl⟩
  | next later ih =>
    cases h' with
    | next later' =>
      obtain ⟨hCount, hFinal⟩ := ih later'
      exact ⟨congrArg Nat.succ hCount, hFinal⟩

def rendering : Piece → String
  | tree e => e.display
  | text s => s

theorem contents_eq_join (stack : List Piece) : contents stack = String.join (stack.map rendering) := by
  induction stack with
  | nil => rfl
  | cons piece rest ih =>
    cases piece with
    | tree e => rw [contents, ih, List.map_cons, String.join_cons, rendering, Expr.display_eq]
    | text s => rw [contents, ih, List.map_cons, String.join_cons, rendering]

end Piece

/-- The text of a tree satisfies the equation of each form, and nothing else does. The texts come from
a stack of pieces: whatever is on the stack, turn after turn it becomes empty, after one number of turns,
and the texts of its pieces have been written from the top down. A program has the text of its tree. -/
theorem display_from_work_stack :
    (Expr.IsText Expr.display ∧ ∀ text, Expr.IsText text → text = Expr.display) ∧
    (∀ (stack : List Piece) (done : String),
      Piece.write stack done = done ++ String.join (stack.map Piece.rendering) ∧
      ∃ n, Piece.Runs stack done n (Piece.write stack done) ∧
        ∀ m final, Piece.Runs stack done m final → m = n ∧ final = Piece.write stack done) ∧
    ∀ p : Program,
      p.display = Piece.write (Piece.pushWithMarks "; " (p.body.map .tree) []) "" ∧
      p.display = p.toExpr.display := by
  refine ⟨⟨Expr.isText_display, ?_⟩, ?_, ?_⟩
  · intro text hText
    funext e
    rw [hText.eq_render, Expr.display_eq]
  · intro stack done
    obtain ⟨n, hRuns⟩ := Piece.exists_runs_write stack done
    refine ⟨?_, n, hRuns, ?_⟩
    · rw [Piece.write_eq_append, Piece.contents_eq_join]
    · intro m final hOther
      exact hOther.unique hRuns
  · intro p
    constructor
    · rw [Piece.pushWithMarks_eq, List.append_nil, Program.display, Expr.statementMark]
    · rw [Program.display_eq, Expr.display_eq]

end Reckoner
