import SourceModel.Declaration
import SourceModel.Token
/-!
# The grammar of declarations

A phrase is a construct of the grammar with the tokens it is written in, so a
token list belongs to the grammar when it is the tokens of some phrase. Marks
and the keyword are known by their text, names by their kind, and the elements
of a template list are any tokens at all.

Phrases know nothing of how they are read. Each gives the tokens it spans, the
value it stands for, and which tokens may not follow it: an alternative that
could still open a template list does not end before `<`, and a declaration
does not end before `|`.
-/

namespace SourceModel.Grammar

/-- A token with this text, whatever its kind. -/
abbrev Word (text : String) := { t : Token // t.is text = true }

/-- A token that is a name, whatever its text. -/
abbrev Identifier := { t : Token // t.isIdentifier = true }

instance : Inhabited Token := ⟨⟨.unknown, "", ⟨0, 0⟩⟩⟩

instance (text : String) : Inhabited (Word text) :=
  ⟨⟨⟨.unknown, text, ⟨0, 0⟩⟩, by simp [Token.is]⟩⟩

instance : Inhabited Identifier := ⟨⟨⟨.identifier, "", ⟨0, 0⟩⟩, rfl⟩⟩

/-- Whether the next token has this text; there is none at the end. -/
def startsWith (text : String) (ts : List Token) : Bool :=
  ts.head?.any (·.is text)

@[simp] theorem startsWith_nil (text : String) : startsWith text [] = false := rfl

@[simp] theorem startsWith_cons (text : String) (t : Token) (ts : List Token) :
    startsWith text (t :: ts) = t.is text := rfl

/-- A token has one text. -/
theorem is_false_of_is {t : Token} {a b : String} (h : t.is a = true) (hne : a ≠ b) : t.is b = false := by
  simp only [Token.is, decide_eq_true_eq, decide_eq_false_iff_not] at h ⊢
  rw [h]
  exact hne

/-! ## Lists with a mark between neighbours -/

/-- One or more things with a mark between neighbours. -/
inductive Separated (mark : String) (α : Type) where
  | last (x : α)
  | more (x : α) (separator : Word mark) (others : Separated mark α)

namespace Separated
variable {mark : String} {α : Type}

def toList : Separated mark α → List α
  | .last x => [x]
  | .more x _ others => x :: others.toList

/-- The last of the things. -/
def final : Separated mark α → α
  | .last x => x
  | .more _ _ others => others.final

/-- The tokens of a list whose things are written as `write` says. -/
def tokens (write : α → List Token) : Separated mark α → List Token
  | .last x => write x
  | .more x separator others => write x ++ separator.val :: others.tokens write

theorem toList_ne_nil (xs : Separated mark α) : xs.toList ≠ [] := by
  cases xs <;> simp [toList]

end Separated

/-! ## Template lists -/

/-- An optional template list. -/
inductive TemplatePhrase (α : Type) where
  | absent
  | list (opening : Word "<") (elements : Separated "," α) (closing : Word ">")

namespace TemplatePhrase
variable {α : Type}

def elements : TemplatePhrase α → List α
  | .absent => []
  | .list _ elements _ => elements.toList

def tokens (write : α → List Token) : TemplatePhrase α → List Token
  | .absent => []
  | .list opening elements closing => opening.val :: (elements.tokens write ++ [closing.val])

/-- Where there is no list, none may open. -/
def EndsBefore : TemplatePhrase α → List Token → Prop
  | .absent, rest => startsWith "<" rest = false
  | .list _ _ _, _ => True

/-- A mark other than an opening bracket ends a list, be it there or not. -/
theorem endsBefore_cons {text : String} (hne : text ≠ "<") {t : Token} (ht : t.is text = true)
    (list : TemplatePhrase α) (rest : List Token) : list.EndsBefore (t :: rest) := by
  cases list with
  | absent => exact is_false_of_is ht hne
  | list opening elements closing => trivial

/-- What ends a list is the next token alone. -/
theorem EndsBefore.of_head {list : TemplatePhrase α} {t : Token} {rest : List Token}
    (h : list.EndsBefore (t :: rest)) (more : List Token) : list.EndsBefore (t :: more) := by
  cases list with
  | absent => exact h
  | list opening elements closing => trivial

end TemplatePhrase

/-- A parameter is any two tokens. -/
def parameterTokens (p : Token × Token) : List Token := [p.1, p.2]

def parameterMeaning (p : Token × Token) : TemplateParameter := ⟨p.1.text, p.2.text⟩

/-- An argument is any single token. -/
def argumentTokens (t : Token) : List Token := [t]

/-! ## Alternatives and declarations -/

structure AlternativePhrase where
  name : Identifier
  arguments : TemplatePhrase Token

namespace AlternativePhrase

instance : Inhabited AlternativePhrase := ⟨⟨default, .absent⟩⟩

def tokens (a : AlternativePhrase) : List Token :=
  a.name.val :: a.arguments.tokens argumentTokens

def meaning (a : AlternativePhrase) : Alternative :=
  ⟨a.name.val.text, a.arguments.elements.map (·.text)⟩

def EndsBefore (a : AlternativePhrase) (rest : List Token) : Prop :=
  a.arguments.EndsBefore rest

end AlternativePhrase

structure DeclarationPhrase where
  keyword : Word "sumtype"
  name : Identifier
  parameters : TemplatePhrase (Token × Token)
  equals : Word "="
  alternatives : Separated "|" AlternativePhrase

namespace DeclarationPhrase

instance : Inhabited DeclarationPhrase := ⟨⟨default, default, .absent, default, .last default⟩⟩

/-- The tokens after the keyword. -/
def body (d : DeclarationPhrase) : List Token :=
  d.name.val :: (d.parameters.tokens parameterTokens ++ d.equals.val ::
    d.alternatives.tokens AlternativePhrase.tokens)

def tokens (d : DeclarationPhrase) : List Token :=
  d.keyword.val :: d.body

/-- The sum type a declaration denotes. -/
def meaning (d : DeclarationPhrase) : SumType where
  name := d.name.val.text
  parameters := d.parameters.elements.map parameterMeaning
  alternatives := d.alternatives.toList.map AlternativePhrase.meaning

/-- Whether a declaration is over when `rest` follows: no further alternative
is announced, and no template list opens after a last alternative without one. -/
def EndsBefore (d : DeclarationPhrase) (rest : List Token) : Prop :=
  startsWith "|" rest = false ∧ d.alternatives.final.EndsBefore rest

/-- Every declaration is over at the end of the tokens. -/
theorem endsBefore_nil (d : DeclarationPhrase) : d.EndsBefore [] := by
  refine ⟨rfl, ?_⟩
  unfold AlternativePhrase.EndsBefore
  cases d.alternatives.final.arguments with
  | absent => rfl
  | list opening elements closing => trivial

theorem tokens_ne_nil (d : DeclarationPhrase) : d.tokens ≠ [] := by
  simp [tokens]

end DeclarationPhrase

end SourceModel.Grammar
