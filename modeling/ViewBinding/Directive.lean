import ViewBinding.Text.Search

/-!
# Directives

Attributes that bind an element to a key: after a fixed start, the name says what is bound.
-/

namespace ViewBinding

/-- What a directive binds. -/
inductive Directive where
  /-- The text content of the element. -/
  | text
  /-- The value of an input, in both directions. -/
  | model
  /-- Nothing: a name without a meaning here. -/
  | unknown (name : String)
deriving DecidableEq, Repr

namespace Directive

/-- The start of directive attributes unless configured otherwise. -/
def standardStart : String := "v-"

def ofName (name : String) : Directive :=
  if name = "text" then text
  else if name = "model" then model
  else unknown name

def name : Directive → String
  | text => "text"
  | model => "model"
  | unknown name => name

/-- The directive of an attribute: with an empty start no attribute is a directive. -/
def ofAttribute? (name start : String) : Option Directive :=
  if start.toList.isEmpty then none
  else (Text.dropStart? start.toList name.toList).map fun rest => ofName (String.ofList rest)

@[simp] theorem ofName_name (d : Directive) (h : ∀ n, d = unknown n → n ≠ "text" ∧ n ≠ "model") :
    ofName d.name = d := by
  cases d with
  | text => rfl
  | model => rfl
  | unknown n => simp [ofName, name, h n rfl]

end Directive
end ViewBinding
