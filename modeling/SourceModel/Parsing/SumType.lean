import SourceModel.Declaration
import SourceModel.TemplateList
/-!
# Sum type declarations

```text
sumtype Name [ < type T {, type T} > ] = Case { | Case }
Case := Identifier [ < Arg {, Arg} > ]
```

Each function here reads one construct from the front of a token list and
answers with its value and the number of tokens it spans, or with a flaw: what
was expected and at which offset. Nothing is consumed.
-/

namespace SourceModel.Parsing

/-- What is wrong at the place where a pass over a file stops. -/
inductive Fault where
  /-- No declaration starts with this token. -/
  | unrecognized (text : String)
  | missingName
  | brokenParameters (base : String)
  | missingEquals
  | missingAlternative
  | brokenArguments (base : String)
  deriving DecidableEq

def Fault.message : Fault → String
  | .unrecognized text => s!"unrecognized syntax: '{text}'"
  | .missingName => "expected sum type name after 'sumtype'"
  | .brokenParameters _ => "malformed template parameter list"
  | .missingEquals => "expected '=' after sum type name"
  | .missingAlternative => "expected sum type alternative"
  | .brokenArguments _ => "malformed template argument list"

/-- A fault with the offset of the offending token. -/
structure Flaw where
  fault : Fault
  offset : Nat
  deriving DecidableEq

/-- The flaw, seen from `n` tokens earlier. -/
def Flaw.shift (flaw : Flaw) (n : Nat) : Flaw :=
  { flaw with offset := flaw.offset + n }

/-! ## Template lists -/

/-- The parameters of a list without its brackets: every third token is a comma. -/
def parameters : List Token → List TemplateParameter
  | kind :: name :: _ :: rest => ⟨kind.text, name.text⟩ :: parameters rest
  | [kind, name] => [⟨kind.text, name.text⟩]
  | _ => []

/-- The arguments of a list without its brackets: every second token is a comma. -/
def arguments : List Token → List String
  | argument :: _ :: rest => argument.text :: arguments rest
  | [argument] => [argument.text]
  | [] => []

/-- An optional template list: what `elements` makes of its inside and the
tokens it spans, or the offset at which it breaks. -/
def templateList {α : Type} (width : Nat) (elements : List Token → List α) :
    List Token → Except Nat (List α × Nat)
  | [] => .ok ([], 0)
  | t :: inner =>
    if t.is "<" then
      match TemplateScan.run width width (inner.drop width) with
      | .closed stop => .ok (elements (inner.take (stop - 1)), stop + 1)
      | .broken stop => .error (stop + 1)
    else .ok ([], 0)

/-! ## The declaration -/

def alternative : List Token → Except Flaw (Alternative × Nat)
  | [] => .error ⟨.missingAlternative, 0⟩
  | t :: rest =>
    if t.isIdentifier then
      match templateList 1 arguments rest with
      | .ok (args, n) => .ok (⟨t.text, args⟩, n + 1)
      | .error k => .error ⟨.brokenArguments t.text, k + 1⟩
    else .error ⟨.missingAlternative, 0⟩

/-- One or more alternatives with bars between them. -/
def alternatives (ts : List Token) : Except Flaw (List Alternative × Nat) :=
  match alternative ts with
  | .error flaw => .error flaw
  | .ok (first, n) =>
    match _hrest : ts.drop n with
    | [] => .ok ([first], n)
    | bar :: rest =>
      if bar.is "|" then
        match alternatives rest with
        | .ok (others, m) => .ok (first :: others, m + (n + 1))
        | .error flaw => .error (flaw.shift (n + 1))
      else .ok ([first], n)
termination_by ts.length
decreasing_by
  have := congrArg List.length _hrest
  simp only [List.length_drop, List.length_cons] at this
  omega

/-- What follows the keyword. -/
def sumTypeBody : List Token → Except Flaw (SumType × Nat)
  | [] => .error ⟨.missingName, 0⟩
  | name :: rest =>
    if name.isIdentifier then
      match templateList 2 parameters rest with
      | .error k => .error ⟨.brokenParameters name.text, k + 1⟩
      | .ok (params, n) =>
        match rest.drop n with
        | [] => .error ⟨.missingEquals, n + 1⟩
        | equals :: cases =>
          if equals.is "=" then
            match alternatives cases with
            | .ok (alts, m) => .ok (⟨name.text, params, alts⟩, m + (n + 2))
            | .error flaw => .error (flaw.shift (n + 2))
          else .error ⟨.missingEquals, n + 1⟩
    else .error ⟨.missingName, 0⟩

/-- The result of trying a declaration at the front of a token list. -/
inductive Attempt where
  | matched (type : SumType) (consumed : Nat)
  | noMatch
  | malformed (flaw : Flaw)
  deriving DecidableEq

def keyword : String := "sumtype"

/-- Tries a sum type declaration. -/
def sumType : List Token → Attempt
  | [] => .noMatch
  | t :: rest =>
    if t.is keyword then
      match sumTypeBody rest with
      | .ok (type, n) => .matched type (n + 1)
      | .error flaw => .malformed (flaw.shift 1)
    else .noMatch

end SourceModel.Parsing
