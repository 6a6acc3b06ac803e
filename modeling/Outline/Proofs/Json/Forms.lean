import Outline.Proofs.Json.Reading

/-!
# Outline.Proofs.Json.Forms

**Every form can be passed over.** A `Form` is a JSON value of any shape: also with fractions, with
keys that are given twice and with strings that cannot be read. A reader that does not want a value
passes over all of its tokens and no more (`Form.reads_passOver`), whatever the value is. This is
why a document may have fields that are not known: what they hold has no say in how it is read.
-/

namespace Outline.Json

/-- A JSON value. A number and a string carry what reading them comes to; all can be passed over. -/
inductive Form
  | null
  | bool (b : Bool)
  | number (read : Except Fault (Option Nat))
  | string (read : Except Fault String)
  | arr (items : List Form)
  | obj (members : List (Except Fault String × Form))

namespace Form

/-- The members of an object in their order. -/
abbrev Members := List (Except Fault String × Form)

mutual

/-- The tokens of a form. -/
def tokens : Form → List Token
  | .null => [.null]
  | .bool b => [.bool b]
  | .number read => [.number read none]
  | .string read => [.string read none]
  | .arr fs => .openArray :: itemTokens true fs ++ [.closeArray]
  | .obj ms => .openObject :: memberTokens true ms ++ [.closeObject]

/-- The tokens of items; `first` tells that no item came before. -/
def itemTokens : Bool → List Form → List Token
  | _, [] => []
  | true, f :: fs => f.tokens ++ itemTokens false fs
  | false, f :: fs => .comma :: f.tokens ++ itemTokens false fs

/-- The tokens of members; `first` tells that no member came before. -/
def memberTokens : Bool → Members → List Token
  | _, [] => []
  | true, (k, f) :: ms => .string k none :: .colon :: f.tokens ++ memberTokens false ms
  | false, (k, f) :: ms => .comma :: .string k none :: .colon :: f.tokens ++ memberTokens false ms

end

theorem tokens_begin (f : Form) : ∃ t ts, f.tokens = t :: ts ∧ t.Begins := by
  cases f <;> exact ⟨_, _, rfl, trivial⟩

/-! ### Passing over -/

/-- What is done behind a value inside the open brackets. -/
def behind (stack : List Bool) (ts : List Token) : Except Fault (List Token) :=
  match stack with
  | [] => .ok ts
  | _ => Reader.passOverFrom stack .separator ts

theorem passOverFrom_first {t : Token} (h : t.Begins) (stack : List Bool) (ts : List Token) :
    Reader.passOverFrom (true :: stack) .valueOrClose (t :: ts) =
      Reader.passOverFrom (true :: stack) .value (t :: ts) := by
  cases t with
  | number read skip => cases skip <;> rfl
  | string read skip => cases skip <;> rfl
  | _ => first | rfl | cases h

mutual

/-- A value is passed over, inside any brackets. -/
theorem passOverFrom_value : ∀ (f : Form) (stack : List Bool) (rest : List Token),
    Reader.passOverFrom stack .value (f.tokens ++ rest) = behind stack rest
  | .null, _, _ | .bool _, _, _ | .number _, _, _ | .string _, _, _ => rfl
  | .arr [], _, _ => rfl
  | .arr (f :: fs), stack, rest => by
      obtain ⟨t, ts, hf, ht⟩ := f.tokens_begin
      have hvalue := passOverFrom_value f (true :: stack)
        (itemTokens false fs ++ .closeArray :: rest)
      have hmore := passOverFrom_items fs stack rest
      rw [hf] at hvalue
      rw [tokens, itemTokens, hf]
      simp only [List.cons_append, List.append_assoc, List.nil_append] at hvalue ⊢
      exact (passOverFrom_first ht _ _).trans (hvalue.trans hmore)
  | .obj [], _, _ => rfl
  | .obj ((k, f) :: ms), stack, rest => by
      have hvalue := passOverFrom_value f (false :: stack)
        (memberTokens false ms ++ .closeObject :: rest)
      have hmore := passOverFrom_members ms stack rest
      rw [tokens, memberTokens]
      simp only [List.cons_append, List.append_assoc, List.nil_append]
      exact hvalue.trans hmore

/-- Items behind the first are passed over to the end of their array. -/
theorem passOverFrom_items : ∀ (fs : List Form) (stack : List Bool) (rest : List Token),
    Reader.passOverFrom (true :: stack) .separator (itemTokens false fs ++ .closeArray :: rest) =
      behind stack rest
  | [], _, _ => rfl
  | f :: fs, stack, rest => by
      have hvalue := passOverFrom_value f (true :: stack)
        (itemTokens false fs ++ .closeArray :: rest)
      have hmore := passOverFrom_items fs stack rest
      rw [itemTokens]
      simp only [List.cons_append, List.append_assoc]
      exact hvalue.trans hmore

/-- Members behind the first are passed over to the end of their object. -/
theorem passOverFrom_members : ∀ (ms : Members) (stack : List Bool)
    (rest : List Token),
    Reader.passOverFrom (false :: stack) .separator
      (memberTokens false ms ++ .closeObject :: rest) = behind stack rest
  | [], _, _ => rfl
  | (k, f) :: ms, stack, rest => by
      have hvalue := passOverFrom_value f (false :: stack)
        (memberTokens false ms ++ .closeObject :: rest)
      have hmore := passOverFrom_members ms stack rest
      rw [memberTokens]
      simp only [List.cons_append, List.append_assoc]
      exact hvalue.trans hmore

end

theorem reads_passOver (f : Form) : Reads Reader.passOver f.tokens () := by
  intro rest
  rw [Reader.passOver, passOverFrom_value]
  rfl

end Form

end Outline.Json
