import Mathlib
import Outline.Proofs.Search.Requests
import Outline.Proofs.Text.Unambiguous

/-!
# Outline.Proofs.Search.Identities

**Requests are merged exactly if they ask for the same, and no two identities look alike.** A plan
keeps the requests of which none before them asks for the same (`Plan.requests_eq_firsts`) and
counts the others. An identity is shown as a list between brackets whose items are quoted texts,
numbers and truth values; the quotes make the texts unambiguous, and numbers and truth values have
none of the marks that may follow them (`IdentityValue.unambiguous_written`), so the list can be
taken apart again whatever its texts are. The same holds of its JSON text on one line and on many.

A writing is unambiguous if what was written can be told from what is read, whatever follows. It is
enough to show this of single values, in front of a mark; lists follow by a lemma about all lists
with commas, whether they stand on one line or on many.
-/

namespace Outline

open Text (Unambiguous Anything AtMark marks)

/-! ### Plans

`firsts` says with positions which requests are kept, and says nothing of how. The code keeps a
request if none of those kept before asks for the same; that these two agree is the induction from
the last. -/

namespace Request

/-- Two requests ask for the same. -/
def AsksSame (r s : Request) : Prop :=
  r.target = s.target ∧ r.strategy = s.strategy ∧ r.kind = s.kind

instance (r s : Request) : Decidable (r.AsksSame s) :=
  inferInstanceAs (Decidable (_ ∧ _ ∧ _))

theorem asksSame_iff {r s : Request} : r.AsksSame s ↔ r = s := by
  cases r
  cases s
  rw [mk.injEq]
  rfl

theorem identity_eq_iff {r s : Request} : r.identity = s.identity ↔ r.AsksSame s := by
  rw [identity_injective.eq_iff, asksSame_iff]

end Request

namespace Plan

/-- Of numbered requests, those of which no request with a smaller number asks for the same. -/
def firsts (rs : List Request) : List Request :=
  (rs.zipIdx.filter fun (p : Request × Nat) => ∀ s ∈ rs.take p.2, ¬ s.AsksSame p.1).map Prod.fst

theorem firsts_concat (rs : List Request) (r : Request) :
    firsts (rs ++ [r]) = if r ∈ rs then firsts rs else firsts rs ++ [r] := by
  -- the requests before the last have nothing new in front of them
  have hbefore : (rs.zipIdx.filter fun (p : Request × Nat) =>
      ∀ s ∈ (rs ++ [r]).take p.2, ¬ s.AsksSame p.1) =
      rs.zipIdx.filter fun (p : Request × Nat) => ∀ s ∈ rs.take p.2, ¬ s.AsksSame p.1 := by
    refine List.filter_congr fun p hp => ?_
    obtain ⟨hi, -⟩ := List.getElem?_eq_some_iff.1 (List.mem_zipIdx_iff_getElem?.1 hp)
    rw [List.take_append_of_le_length (Nat.le_of_lt hi)]
  -- the last request is new if it is none of those before it
  have hlast : (∀ s ∈ (rs ++ [r]).take (0 + rs.length), ¬ s.AsksSame r) ↔ r ∉ rs := by
    rw [Nat.zero_add, List.take_left]
    simp only [Request.asksSame_iff]
    exact ⟨fun h hr => h r hr rfl, fun h s hs he => h (he ▸ hs)⟩
  rw [firsts, List.zipIdx_append, List.filter_append, List.map_append, hbefore,
    List.zipIdx_singleton, List.filter_singleton]
  simp only [hlast]
  by_cases hr : r ∈ rs <;> simp [hr, firsts]

theorem requests_eq_firsts (rs : List Request) : (ofRequests rs).requests = firsts rs := by
  induction rs using List.reverseRecOn with
  | nil => rfl
  | append_singleton rs r ih =>
      rw [ofRequests_concat, requests_add, firsts_concat, ih]
      simp only [← ih, mem_requests_ofRequests]

/-- Every request is kept or counted. -/
theorem length_add_merged (rs : List Request) :
    (ofRequests rs).requests.length + (ofRequests rs).merged = rs.length := by
  induction rs using List.reverseRecOn with
  | nil => rfl
  | append_singleton rs r ih =>
      rw [ofRequests_concat, add, List.length_append, List.length_singleton]
      split
      · rw [← ih, Nat.add_assoc]
      · show ((ofRequests rs).requests ++ [r]).length + (ofRequests rs).merged = _
        rw [List.length_append, List.length_singleton, ← ih]
        omega

/-- Where no request comes twice, none is merged. -/
theorem ofRequests_of_nodup {rs : List Request} (h : rs.Nodup) : ofRequests rs = ⟨rs, 0⟩ := by
  induction rs using List.reverseRecOn with
  | nil => rfl
  | append_singleton rs r ih =>
      obtain ⟨hrs, -, hnew⟩ := List.nodup_append.1 h
      have hr : r ∉ rs := fun hr => hnew r hr r List.mem_cons_self rfl
      have hrequests := requests_add (ofRequests rs) r
      have hlength := length_add_merged (rs ++ [r])
      rw [ofRequests_concat, ih hrs] at hlength ⊢
      rw [ih hrs, if_neg hr] at hrequests
      rw [hrequests] at hlength
      -- the new plan is known by its requests and by how many it has merged
      generalize add ⟨rs, 0⟩ r = p at hrequests hlength ⊢
      obtain ⟨requests, merged⟩ := p
      cases hrequests
      have hmerged : (rs ++ [r]).length + merged = (rs ++ [r]).length := hlength
      rw [mk.injEq]
      exact ⟨rfl, by omega⟩

end Plan

/-! ### Identities as texts

Three sorts of values have to be told apart by their first character and ended by a mark. A text
begins with a quote, which no number and no truth value has; and a number has no letters, while a
truth value has nothing else. -/

/-- A word that is neither a quoted text nor goes on with a mark. -/
structure Word (u : List Char) : Prop where
  ne_nil : u ≠ []
  unmarked : ∀ c ∈ u, c ∉ marks
  unquoted : '"' ∉ u

/-- A number is written with digits and a sign. -/
theorem of_mem_toString_int {n : Int} {c : Char} (h : c ∈ (toString n).toList) :
    c.isDigit = true ∨ c = '-' := by
  have hdigit : ∀ {m : Nat}, c ∈ m.repr.toList → c.isDigit = true := by
    intro m hc
    rw [Nat.toList_repr] at hc
    exact Nat.isDigit_of_mem_toDigits (by decide) (by decide) hc
  rw [Int.toString_eq_repr, Int.repr_eq_if] at h
  split at h
  · exact .inl (hdigit h)
  · rw [String.toList_append] at h
    rcases List.mem_append.1 h with h | h
    · exact .inr (List.mem_singleton.1 h)
    · exact .inl (hdigit h)

theorem word_toString_int (n : Int) : Word (toString n).toList := by
  have hno : ∀ c, c.isDigit = false → c ≠ '-' → c ∉ (toString n).toList := by
    intro c hdigit hsign hc
    rcases of_mem_toString_int hc with h | h
    · rw [hdigit] at h
      cases h
    · exact hsign h
  refine ⟨fun hnil => ?_, fun c hc hmark => ?_, hno _ (by decide) (by decide)⟩
  · rw [Int.toString_eq_repr, Int.repr_eq_if] at hnil
    split at hnil
    · rw [Nat.toList_repr] at hnil
      exact Nat.toDigits_ne_nil hnil
    · rw [String.toList_append] at hnil
      cases hnil
  · have hmarks : ∀ c ∈ marks, c.isDigit = false ∧ c ≠ '-' := by simp [marks]
    exact hno c (hmarks c hmark).1 (hmarks c hmark).2 hc

/-- A truth value as a word. -/
def truth (b : Bool) : List Char := (if b then "true" else "false").toList

theorem word_truth (b : Bool) : Word (truth b) := by
  cases b <;> exact ⟨by decide, by simp [truth, marks], by decide⟩

theorem toString_int_ne_truth (n : Int) (b : Bool) : (toString n).toList ≠ truth b := by
  intro h
  -- both truth values have an `e`
  have he : 'e' ∈ (toString n).toList := by
    rw [h]
    cases b <;> decide
  rcases of_mem_toString_int he with hdigit | hsign
  · exact absurd hdigit (by decide)
  · exact absurd hsign (by decide)

namespace IdentityValue

variable {quote : String → List Char}

/-- A value whose texts are written by `quote`. -/
def written (quote : String → List Char) : IdentityValue → List Char
  | text s => quote s
  | int n => (toString n).toList
  | bool b => truth b

/-- If texts are written between quotes and unambiguously, values are unambiguous in front of a
mark. -/
theorem unambiguous_written (h : Unambiguous Anything quote)
    (hquote : ∀ s, (quote s).head? = some '"') : Unambiguous AtMark (written quote) := by
  have hapart : ∀ {s u x y}, Word u → quote s ++ x ≠ u ++ y := by
    intro s u x y hu heq
    refine hu.unquoted (List.mem_of_mem_head? ?_)
    rw [← List.head?_append_of_ne_nil u hu.ne_nil, ← heq, List.head?_append_of_ne_nil]
    · exact hquote s
    · intro hnil
      have hhead := hquote s
      rw [hnil] at hhead
      cases hhead
  intro v w x y hx hy heq
  -- by the sorts of both values: equal sorts by injectivity, different ones by a character
  cases v with
  | text s =>
      cases w with
      | text t => exact (h trivial trivial heq).imp_left (congrArg text)
      | int n => exact absurd heq (hapart (word_toString_int n))
      | bool b => exact absurd heq (hapart (word_truth b))
  | int n =>
      cases w with
      | text t => exact absurd heq.symm (hapart (word_toString_int n))
      | int m =>
          obtain ⟨hnm, hxy⟩ := Text.append_inj_of_atMark (word_toString_int n).unmarked
            (word_toString_int m).unmarked hx hy heq
          have hrepr := String.toList_inj.1 hnm
          rw [Int.toString_eq_repr, Int.toString_eq_repr] at hrepr
          exact ⟨congrArg int (Int.repr_inj.1 hrepr), hxy⟩
      | bool b =>
          exact absurd (Text.append_inj_of_atMark (word_toString_int n).unmarked
            (word_truth b).unmarked hx hy heq).1 (toString_int_ne_truth n b)
  | bool b =>
      cases w with
      | text t => exact absurd heq.symm (hapart (word_truth b))
      | int n =>
          exact absurd (Text.append_inj_of_atMark (word_truth b).unmarked
            (word_toString_int n).unmarked hx hy heq).1.symm (toString_int_ne_truth n b)
      | bool c =>
          obtain ⟨hbc, hxy⟩ := Text.append_inj_of_atMark (word_truth b).unmarked
            (word_truth c).unmarked hx hy heq
          have hinj : ∀ b c, truth b = truth c → b = c := by decide
          exact ⟨congrArg bool (hinj b c hbc), hxy⟩

/-- What is written for a value does not look like the end of a list. -/
theorem head?_written (hquote : ∀ s, (quote s).head? = some '"') (v : IdentityValue) :
    v.written quote ≠ [] ∧ (v.written quote).head? ≠ some ']' := by
  have hword : ∀ {u}, Word u → u ≠ [] ∧ u.head? ≠ some ']' := fun hu =>
    ⟨hu.ne_nil, fun hhead => hu.unmarked _ (List.mem_of_mem_head? hhead) (by decide)⟩
  cases v with
  | text s =>
      have hs := hquote s
      refine ⟨fun hnil => ?_, fun hhead => ?_⟩
      · have hnil : quote s = [] := hnil
        rw [hnil] at hs
        cases hs
      · exact absurd (hs.symm.trans hhead) (by decide)
  | int n => exact hword (word_toString_int n)
  | bool b => exact hword (word_truth b)

theorem toList_display (v : IdentityValue) :
    v.display.toList = v.written fun s => (Text.quoted s).toList := by
  cases v <;> rfl

theorem compactChars_toValue (v : IdentityValue) :
    v.toValue.compactChars = v.written Json.string := by
  cases v with
  | bool b => cases b <;> rfl
  | _ => rfl

theorem prettyChars_toValue (level : Nat) (v : IdentityValue) :
    v.toValue.prettyChars level = v.written Json.string := by
  cases v with
  | bool b => cases b <;> rfl
  | _ => rfl

end IdentityValue

namespace Identity

/-- Values between brackets on one line, written with texts by `quote`. -/
def written (quote : String → List Char) (space : List Char) (i : Identity) : List Char :=
  '[' :: (',' :: space).intercalate (i.map (IdentityValue.written quote)) ++ [']']

theorem unambiguous_written {quote : String → List Char} (h : Unambiguous Anything quote)
    (hquote : ∀ s, (quote s).head? = some '"') (space : List Char) :
    Unambiguous Anything (written quote space) :=
  (IdentityValue.unambiguous_written h hquote).listing (fun v => (v.head?_written hquote).2)
    (fun v => (v.head?_written hquote).1) space

theorem toList_display (i : Identity) :
    i.display.toList = i.written (fun s => (Text.quoted s).toList) [' '] := by
  rw [display, String.toList_append, String.toList_append, String.toList_intercalate, List.map_map,
    written]
  simp only [Function.comp_def, IdentityValue.toList_display]
  rfl

/-- Identities that are shown alike are the same. -/
theorem display_injective : Function.Injective display := by
  intro i j h
  have hquote : ∀ s, (Text.quoted s).toList.head? = some '"' := fun s => by
    rw [Text.quoted, String.toList_ofList]
    rfl
  refine (unambiguous_written Text.unambiguous_quoted hquote [' ']).injective trivial ?_
  rw [← toList_display, ← toList_display, h]

theorem head?_string (s : String) : (Json.string s).head? = some '"' := rfl

theorem compactChars_toValue (i : Identity) :
    i.toValue.compactChars = i.written Json.string [] := by
  have hitems : Json.Value.compactItems (i.map (·.toValue)) =
      i.map (IdentityValue.written Json.string) := by
    induction i with
    | nil => rfl
    | cons v i ih =>
        rw [List.map_cons, Json.Value.compactItems, ih, v.compactChars_toValue, List.map_cons]
  rw [toValue, Json.Value.compactChars, hitems]
  rfl

/-- Identities with one JSON text on one line are the same. -/
theorem compact_injective : Function.Injective fun i : Identity => i.toValue.compact := by
  intro i j h
  have hchars : i.toValue.compactChars = j.toValue.compactChars := String.ofList_injective h
  rw [compactChars_toValue, compactChars_toValue] at hchars
  exact (unambiguous_written Text.unambiguous_string head?_string []).injective trivial hchars

/-- An item on a line of its own. -/
def line (level : Nat) (v : IdentityValue) : List Char :=
  Json.Value.newline (level + 1) ++ v.written Json.string

theorem unambiguous_line (level : Nat) : Unambiguous AtMark (line level) := by
  intro v w x y hx hy heq
  rw [line, line, List.append_assoc, List.append_assoc] at heq
  exact IdentityValue.unambiguous_written Text.unambiguous_string head?_string hx hy
    (List.append_cancel_left heq)

theorem prettyChars_toValue (level : Nat) (v : IdentityValue) (i : Identity) :
    Json.Value.prettyChars level (toValue (v :: i)) =
      '[' :: [','].intercalate ((v :: i).map (line level)) ++
        '\n' :: (List.replicate (2 * level) ' ' ++ [']']) := by
  have hitems : ∀ i : Identity, Json.Value.prettyItems (level + 1) (i.map (·.toValue)) =
      i.map (line level) := by
    intro i
    induction i with
    | nil => rfl
    | cons v i ih =>
        rw [List.map_cons, Json.Value.prettyItems, ih, v.prettyChars_toValue, List.map_cons, line]
  rw [toValue, List.map_cons, Json.Value.prettyChars, ← List.map_cons, hitems, List.append_assoc]
  rfl

/-- Identities with one JSON text on many lines are the same, at any level. -/
theorem pretty_injective (level : Nat) :
    Function.Injective fun i : Identity => i.toValue.prettyChars level := by
  -- an empty list is the only one without line ends, so it is told apart first
  have hnil : ∀ v (i : Identity), (toValue []).prettyChars level ≠
      (toValue (v :: i)).prettyChars level := by
    intro v i h
    -- behind the bracket stands another bracket, or the end of the line
    rw [prettyChars_toValue, List.map_cons, Text.intercalate_cons_flatMap] at h
    exact absurd (List.cons.inj (List.cons.inj h).2).1 (by decide)
  intro i j h
  cases i with
  | nil =>
      cases j with
      | nil => rfl
      | cons w j => exact absurd h (hnil w j)
  | cons v i =>
      cases j with
      | nil => exact absurd h.symm (hnil v i)
      | cons w j =>
          dsimp only at h
          rw [prettyChars_toValue, prettyChars_toValue] at h
          exact ((unambiguous_line level).items (by decide) (by decide) [] (List.cons.inj h).2).1

end Identity

/-- **Requests are merged exactly if they ask for the same.** A plan keeps, in their order, the
requests of which none submitted before asks for the same target with the same strategy and kind;
every other one is counted as merged, and planning the kept ones again changes nothing. Two
requests have one identity exactly if they ask for the same. Different identities are shown by
different texts, whatever values they have, and so they are by their JSON, on one line or on
many. -/
theorem plan_exact :
    (∀ rs : List Request,
      (Plan.ofRequests rs).requests = Plan.firsts rs ∧
      (Plan.ofRequests rs).requests.length + (Plan.ofRequests rs).merged = rs.length ∧
      Plan.ofRequests (Plan.ofRequests rs).requests = ⟨(Plan.ofRequests rs).requests, 0⟩) ∧
    (∀ r s : Request, r.identity = s.identity ↔
      r.target = s.target ∧ r.strategy = s.strategy ∧ r.kind = s.kind) ∧
    Function.Injective Identity.display ∧
    (Function.Injective fun i : Identity => i.toValue.compact) ∧
    ∀ level, Function.Injective fun i : Identity => i.toValue.prettyChars level :=
  ⟨fun rs => ⟨Plan.requests_eq_firsts rs, Plan.length_add_merged rs,
      Plan.ofRequests_of_nodup (Plan.nodup_requests_ofRequests rs)⟩,
    fun _ _ => Request.identity_eq_iff, Identity.display_injective, Identity.compact_injective,
    Identity.pretty_injective⟩

end Outline
