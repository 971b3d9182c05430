import SourceModel.Lexical.LineIndex
import SourceModel.Lexical.Rule
/-!
# Cutting text into tokens

A text is cut from left to right into pieces, each decided by what is left of
the text: the longest prefix that some rule accepts, a block comment through
its first end, or, where no rule accepts anything, one unknown token. Blanks
and comments are dropped; the other pieces are the tokens. The line index says
where each of them stands.
-/

namespace SourceModel.Lexical

/-- What becomes of a piece of text. -/
inductive PieceKind where
  /-- Blanks and comments. -/
  | trivia
  | token (kind : TokenKind)
  deriving DecidableEq

structure Piece where
  kind : PieceKind
  length : Nat
  deriving DecidableEq

/-- Length of a text through its first `*/`, if it has one. -/
def throughCommentEnd : List Char → Option Nat
  | '*' :: '/' :: _ => some 2
  | _ :: rest => (throughCommentEnd rest).map (· + 1)
  | [] => none

/-- The piece at the front of a text, for a text that is not empty. -/
def nextPiece (s : List Char) : Piece :=
  match Rule.best s with
  | some (.blanks, n) => ⟨.trivia, n⟩
  | some (.lineComment, n) => ⟨.trivia, n⟩
  | some (.identifier, n) => ⟨.token .identifier, n⟩
  | some (.number, n) => ⟨.token .number, n⟩
  | some (.stringLiteral, n) => ⟨.token .stringLiteral, n⟩
  | some (.punctuation, n) => ⟨.token .punctuation, n⟩
  | some (.commentOpening, n) =>
    match throughCommentEnd (s.drop n) with
    | some m => ⟨.trivia, n + m⟩
    | none => ⟨.token .unknown, s.length⟩
  | none =>
    match s with
    | '"' :: rest => ⟨.token .unknown, Rule.quotedLength rest + 1⟩
    | _ => ⟨.token .unknown, 1⟩

/-- The tokens of what is left of an indexed text from byte `offset` on. -/
def tokensAt (index : LineIndex) (offset : Nat) : List Char → List Token
  | [] => []
  | c :: rest =>
    let piece := nextPiece (c :: rest)
    let text := String.ofList (c :: rest.take (piece.length - 1))
    let others := tokensAt index (offset + text.utf8ByteSize) (rest.drop (piece.length - 1))
    match piece.kind with
    | .trivia => others
    | .token kind => ⟨kind, text, index.position offset⟩ :: others
termination_by s => s.length
decreasing_by simp only [List.length_drop, List.length_cons]; omega

/-- The tokens of a source text. -/
def tokenize (source : String) : List Token :=
  tokensAt (.ofSource source) 0 source.toList

end SourceModel.Lexical
