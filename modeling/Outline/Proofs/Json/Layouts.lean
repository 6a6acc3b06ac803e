import Outline.Proofs.Json.Forms

/-!
# Outline.Proofs.Json.Layouts

**What a reader makes of any form.** `Meets value ts r` says what a reader comes to on the tokens
`ts`, whatever follows them: it takes exactly these, or it fails. A reader meets what its parts
meet: of an array whose items it reads (`meets_items`), of an array that stands for a record
(`meets_part`), and of an object, whose members are gathered one after another (`meets_members`).
Where every member may be given once and is gathered for itself (`fill`), the order of the members
does not matter: it counts what stands under each key (`only?`).

The proofs go from left to right as the readers do. A reader does not see the form, only tokens, and
does not know what follows; so `Meets` quantifies over what follows, and its lemmas put readers
behind each other where their tokens are.
-/

namespace Outline.Json

/-! ### What a reader comes to

To fail is part of the statement. It has to be: a layout says for every form whether it is laid out
so, and a reader that fails on what a part could not be must fail on the whole. -/

/-- On the tokens `ts`, whatever follows them, the reader takes exactly these and comes to what is
told, or it fails. -/
def Meets {α : Type} (value : Reader α) (ts : List Token) : Option α → Prop
  | some a => Reads value ts a
  | none => ∀ rest, ∃ fault, value (ts ++ rest) = .error fault

namespace Meets

variable {α β σ : Type} {x : Reader α} {g : α → Reader β} {ts us : List Token} {r : Option α}

/-- Going on as another reader does on other tokens. -/
theorem of_eq {y : Reader α} (h : Meets y us r) (heq : ∀ rest, x (ts ++ rest) = y (us ++ rest)) :
    Meets x ts r := by
  cases r with
  | none =>
      intro rest
      rw [heq]
      exact h rest
  | some a =>
      intro rest
      rw [heq]
      exact h rest

theorem pure (a : α) : Meets (Pure.pure a) [] (some a) := Reads.pure a

theorem throw (fault : Fault) (ts : List Token) : Meets (throw fault : Reader α) ts none :=
  fun _ => ⟨fault, rfl⟩

theorem bind {s : α → Option β} (hx : Meets x ts r) (hg : ∀ a, Meets (g a) us (s a)) :
    Meets (x >>= g) (ts ++ us) (r.bind s) := by
  have hrun : ∀ rest, (x >>= g) (ts ++ us ++ rest) =
      (x (ts ++ (us ++ rest))).bind fun p => g p.1 p.2 := by
    intro rest
    rw [List.append_assoc]
    rfl
  -- the first reader fails, and so does the whole; or the second goes on from where it stopped
  cases r with
  | none =>
      intro rest
      obtain ⟨fault, hfault⟩ := hx (us ++ rest)
      exact ⟨fault, by rw [hrun, hfault]; rfl⟩
  | some a =>
      have ha := hg a
      rw [Option.bind_some]
      cases hs : s a with
      | none =>
          rw [hs] at ha
          intro rest
          obtain ⟨fault, hfault⟩ := ha rest
          exact ⟨fault, by rw [hrun, hx]; exact hfault⟩
      | some b =>
          rw [hs] at ha
          exact Reads.bind hx ha

/-- Going on without taking any more tokens. -/
theorem last {s : α → Option β} (hx : Meets x ts r) (hg : ∀ a, Meets (g a) [] (s a)) :
    Meets (x >>= g) ts (r.bind s) := by
  rw [← List.append_nil ts]
  exact hx.bind hg

theorem map (hx : Meets x ts r) (w : α → β) :
    Meets (x >>= fun a => Pure.pure (w a)) ts (r.map w) := by
  rw [Option.map_eq_bind]
  exact hx.last fun a => pure (w a)

theorem next {g : Token → Reader β} {t : Token} {r : Option β} (h : Meets (g t) us r) :
    Meets (Reader.next >>= g) (t :: us) r :=
  h.of_eq fun _ => rfl

/-- Where the fuel is counted from what is left, as much as is needed for the tokens. -/
theorem fueled {x : Nat → Reader α} {more : Nat}
    (h : ∀ rest, Meets (x ((ts ++ rest).length + more)) ts r) :
    Meets (fun us => x (us.length + more) us) ts r := by
  cases r with
  | none => exact fun rest => h rest rest
  | some a => exact fun rest => h rest rest

/-- A whole text is read if its tokens are, -/
theorem run {bs : List UInt8} {a : α} (h : Meets x ts (some a)) (hts : tokens bs = ts) :
    Reader.run x bs = .ok a := by
  have hx := h []
  rw [List.append_nil] at hx
  rw [Reader.run, hts, hx]

/-- and else not. -/
theorem run_none {bs : List UInt8} (h : Meets x ts none) (hts : tokens bs = ts) :
    ∃ fault, Reader.run x bs = .error fault := by
  obtain ⟨fault, hx⟩ := h []
  rw [List.append_nil] at hx
  exact ⟨fault, by rw [Reader.run, hts, hx]⟩

end Meets

/-! ### Single values

Cases on the form are cases on its first token, which decides. -/

namespace Form

/-- The text of a string that can be read. -/
def text? : Form → Option String
  | .string (.ok s) => some s
  | _ => none

/-- The number of a numeral that is natural and fits 32 bits. -/
def nat32? : Form → Option Nat
  | .number (.ok (some n)) => if n < Nat.pow 2 32 then some n else none
  | _ => none

/-- Nothing for `null`, or what the form is read as. -/
def optional? {α : Type} (read : Form → Option α) : Form → Option (Option α)
  | .null => some none
  | f => (read f).map some

theorem meets_text (f : Form) : Meets Reader.text f.tokens f.text? := by
  cases f with
  | string read => cases read with
    | ok s => exact Reads.text s
    | error e => exact .next (.throw _ _)
  | _ => exact .next (.throw _ _)

theorem meets_nat32 (f : Form) : Meets Reader.nat32 f.tokens f.nat32? := by
  cases f with
  | number read => cases read with
    | error e => exact .next (.throw _ _)
    | ok n? => cases n? with
      | none => exact .next (.throw _ _)
      | some n =>
          have hn : Meets (if n < Nat.pow 2 32 then return n else throw .mismatched : Reader Nat) []
              (if n < Nat.pow 2 32 then some n else none) := by
            split
            · exact .pure n
            · exact .throw _ _
          exact .next hn
  | _ => exact .next (.throw _ _)

theorem meets_optional {α : Type} {value : Reader α} {read : Form → Option α}
    (h : ∀ f, Meets value f.tokens (read f)) (f : Form) :
    Meets (Reader.optional value) f.tokens (optional? read f) := by
  have hf := (h f).map some
  cases f with
  | null => exact fun _ => rfl
  | _ => exact hf

/-! ### Arrays

Readers of arrays have fuel for their recursion. It is the number of tokens that are left, which is
more than there are items; the induction is over the items and takes fuel as it goes. -/

theorem itemTokens_nil (first : Bool) : itemTokens first [] = [] := by
  cases first <;> rfl

theorem itemTokens_cons (first : Bool) (f : Form) (fs : List Form) :
    itemTokens first (f :: fs) = itemTokens first [f] ++ itemTokens false fs := by
  cases first <;> simp [itemTokens]

theorem nextItem_item (first : Bool) (f : Form) (rest : List Token) :
    Reader.nextItem first (itemTokens first [f] ++ rest) = .ok (true, f.tokens ++ rest) := by
  obtain ⟨t, ts, hf, ht⟩ := f.tokens_begin
  cases first with
  | true =>
      simp only [itemTokens, hf, List.append_nil]
      exact Reader.nextItem_first ht _
  | false =>
      simp only [itemTokens, hf, List.append_nil]
      exact Reader.nextItem_comma ht _

/-- What an array is read as if its items are. -/
def items? {α : Type} (read : Form → Option α) : Form → Option (List α)
  | .arr fs => fs.mapM read
  | _ => none

section

variable {α β : Type} {value : Reader α} {read : Form → Option α} {x y : Reader β}
  {us : List Token} {r : Option β} {first : Bool} {f : Form}

/-- Where an item follows, an array goes on. -/
theorem meets_item (h : Meets x (f.tokens ++ us) r) :
    Meets (do if ← Reader.nextItem first then x else y) (itemTokens first [f] ++ us) r := by
  have hrun : ∀ rest, (do if ← Reader.nextItem first then x else y : Reader β)
      (itemTokens first [f] ++ us ++ rest) = x (f.tokens ++ us ++ rest) := by
    intro rest
    have hnext := nextItem_item first f (us ++ rest)
    rw [List.append_assoc, List.append_assoc]
    show (Reader.nextItem first _).bind _ = _
    rw [hnext]
    rfl
  exact h.of_eq hrun

/-- Where the bracket follows, an array ends. -/
theorem meets_noItem (h : Meets y (.closeArray :: us) r) :
    Meets (do if ← Reader.nextItem first then x else y) (.closeArray :: us) r :=
  h.of_eq fun _ => rfl

theorem meets_itemsFrom (h : ∀ f, Meets value f.tokens (read f)) {fs : List Form} {fuel : Nat}
    (hfuel : fs.length < fuel) (first : Bool) :
    Meets (Reader.itemsFrom value fuel first) (itemTokens first fs ++ [.closeArray])
      (fs.mapM read) := by
  induction fs generalizing fuel first with
  | nil =>
      obtain ⟨fuel, rfl⟩ := Nat.exists_eq_add_one_of_ne_zero (Nat.ne_zero_of_lt hfuel)
      rw [itemTokens_nil]
      exact meets_noItem fun _ => rfl
  -- an item is read and then the rest, for which one less of the fuel is left
  | cons f fs ih =>
      obtain ⟨fuel, rfl⟩ := Nat.exists_eq_add_one_of_ne_zero (Nat.ne_zero_of_lt hfuel)
      have hmore := ih (Nat.lt_of_succ_lt_succ hfuel) false
      rw [List.mapM_cons, itemTokens_cons, List.append_assoc]
      exact meets_item ((h f).bind fun a => hmore.last fun as => .pure (a :: as))

theorem length_itemTokens (first : Bool) (fs : List Form) :
    fs.length ≤ (itemTokens first fs).length := by
  induction fs generalizing first with
  | nil => exact Nat.zero_le _
  | cons f fs ih =>
      obtain ⟨t, ts, hf, -⟩ := f.tokens_begin
      have := ih false
      cases first <;> simp only [itemTokens, hf, List.length_cons, List.length_append] <;> omega

/-- An array is read item by item. -/
theorem meets_items (h : ∀ f, Meets value f.tokens (read f)) (f : Form) :
    Meets (Reader.items value) f.tokens (items? read f) := by
  cases f with
  | arr fs =>
      -- The fuel is the number of tokens, and every item has at least one.
      have hlength := length_itemTokens true fs
      have hitems : ∀ rest, Meets (Reader.itemsFrom value
          ((itemTokens true fs ++ [Token.closeArray] ++ rest).length + 1) true)
          (itemTokens true fs ++ [Token.closeArray]) (fs.mapM read) := by
        intro rest
        refine meets_itemsFrom h ?_ true
        rw [List.length_append, List.length_append]
        omega
      exact Meets.fueled (x := fun fuel => Reader.itemsFrom value fuel true) hitems
  | _ => exact .next (.throw _ _)

/-! ### Arrays that stand for records

Each part of such an array is read by its own reader, so the layout is written as a chain: a part
and what is done with the parts behind it. -/

/-- A part of a record is the next item, which has to be there. -/
def part? (read : Form → Option α) (more : α → List Form → Option β) : List Form → Option β
  | [] => none
  | f :: fs => (read f).bind fun a => more a fs

/-- A part of a record that has a default. -/
def partOr? (default : α) (read : Form → Option α) (more : α → List Form → Option β) :
    List Form → Option β
  | [] => more default []
  | f :: fs => (read f).bind fun a => more a fs

/-- Behind its parts a record ends. -/
def close? (b : β) : List Form → Option β
  | [] => some b
  | _ :: _ => none

variable {g : α → Reader β} {more : α → List Form → Option β}

theorem meets_part (h : ∀ f, Meets value f.tokens (read f))
    (hg : ∀ a fs, Meets (g a) (itemTokens false fs ++ [.closeArray]) (more a fs)) (fs : List Form) :
    Meets (Reader.field first value >>= g) (itemTokens first fs ++ [.closeArray])
      (part? read more fs) := by
  cases fs with
  -- where a part should be, the bracket ends the array
  | nil =>
      rw [itemTokens_nil]
      exact fun _ => ⟨_, rfl⟩
  | cons f fs =>
      have hfield : Meets (Reader.field first value) (itemTokens first [f] ++ []) (read f) :=
        meets_item (by rw [List.append_nil]; exact h f)
      rw [List.append_nil] at hfield
      rw [itemTokens_cons, List.append_assoc]
      exact hfield.bind fun a => hg a fs

theorem meets_partOr {default : α} (h : ∀ f, Meets value f.tokens (read f))
    (hg : ∀ a fs, Meets (g a) (itemTokens false fs ++ [.closeArray]) (more a fs)) (fs : List Form) :
    Meets (Reader.fieldOr default value >>= g) (itemTokens false fs ++ [.closeArray])
      (partOr? default read more fs) := by
  cases fs with
  | nil =>
      have hdefault : Meets (g default) [.closeArray] (more default []) := hg default []
      exact hdefault.of_eq fun _ => rfl
  | cons f fs =>
      have hfield : Meets (Reader.fieldOr default value) (itemTokens false [f] ++ []) (read f) :=
        meets_item (by rw [List.append_nil]; exact h f)
      rw [List.append_nil] at hfield
      rw [itemTokens_cons, List.append_assoc]
      exact hfield.bind fun a => hg a fs

theorem meets_close (b : β) (fs : List Form) :
    Meets (do Reader.closeArray; return b) (itemTokens false fs ++ [.closeArray])
      (close? b fs) := by
  cases fs with
  | nil => exact fun _ => rfl
  | cons f fs => exact fun _ => ⟨_, rfl⟩

end

/-! ### Objects

A member is a key and a value. A key with a fault in it ends the reading, whatever was gathered
before. -/

/-- The members of an object, if all keys can be read. -/
def keyed? : Members → Option (List (String × Form))
  | [] => some []
  | (.ok k, f) :: ms => (keyed? ms).map ((k, f) :: ·)
  | (.error _, _) :: _ => none

theorem memberTokens_nil (first : Bool) : memberTokens first [] = [] := by
  cases first <;> rfl

theorem memberTokens_cons (first : Bool) (m : Except Fault String × Form)
    (ms : Members) :
    memberTokens first (m :: ms) = memberTokens first [m] ++ memberTokens false ms := by
  cases first <;> simp [memberTokens]

theorem nextKey_member (first : Bool) (k : String) (f : Form) (rest : List Token) :
    Reader.nextKey first (memberTokens first [(.ok k, f)] ++ rest) =
      .ok (some k, f.tokens ++ rest) := by
  cases first <;> (simp only [memberTokens, List.append_nil]; rfl)

theorem nextKey_unread (first : Bool) (e : Fault) (f : Form) (rest : List Token) :
    Reader.nextKey first (memberTokens first [(.error e, f)] ++ rest) = .error e := by
  cases first <;> rfl

section

variable {α β σ : Type} {x : String → Reader β} {y : Reader β} {us : List Token} {r : Option β}
  {first : Bool} {f : Form}

/-- Where a member follows, an object goes on. -/
theorem meets_member {k : String} (h : Meets (x k) (f.tokens ++ us) r) :
    Meets (do match ← Reader.nextKey first with | some k => x k | none => y)
      (memberTokens first [(.ok k, f)] ++ us) r := by
  have hrun : ∀ rest, (do match ← Reader.nextKey first with | some k => x k | none => y : Reader β)
      (memberTokens first [(.ok k, f)] ++ us ++ rest) = x k (f.tokens ++ us ++ rest) := by
    intro rest
    have hnext := nextKey_member first k f (us ++ rest)
    rw [List.append_assoc, List.append_assoc]
    show (Reader.nextKey first _).bind _ = _
    rw [hnext]
    rfl
  exact h.of_eq hrun

/-- A key that cannot be read is a fault. -/
theorem meets_unread {e : Fault} :
    Meets (do match ← Reader.nextKey first with | some k => x k | none => y)
      (memberTokens first [(.error e, f)] ++ us) none := by
  intro rest
  refine ⟨e, ?_⟩
  have hnext := nextKey_unread first e f (us ++ rest)
  rw [List.append_assoc]
  show (Reader.nextKey first _).bind _ = _
  rw [hnext]
  rfl

/-- What gathering the members one after another comes to. -/
def gather? (step : σ → String × Form → Option σ) (s : σ)
    (ms : Members) : Option σ :=
  (keyed? ms).bind (List.foldlM step s)

variable {step : σ → String → Reader σ} {next : σ → String × Form → Option σ}

theorem gather?_cons (s : σ) (k : String) (f : Form) (ms : Members) :
    gather? next s ((.ok k, f) :: ms) = (next s (k, f)).bind fun s => gather? next s ms := by
  unfold gather?
  rw [keyed?]
  cases keyed? ms with
  | none => cases next s (k, f) <;> rfl
  | some ks => rfl

theorem meets_membersFrom (h : ∀ s k f, Meets (step s k) f.tokens (next s (k, f)))
    {ms : Members} {fuel : Nat} (hfuel : ms.length < fuel) (first : Bool)
    (s : σ) :
    Meets (Reader.membersFrom step fuel first s) (memberTokens first ms ++ [.closeObject])
      (gather? next s ms) := by
  induction ms generalizing fuel first s with
  | nil =>
      obtain ⟨fuel, rfl⟩ := Nat.exists_eq_add_one_of_ne_zero (Nat.ne_zero_of_lt hfuel)
      rw [memberTokens_nil]
      cases first <;> exact fun _ => rfl
  | cons m ms ih =>
      obtain ⟨fuel, rfl⟩ := Nat.exists_eq_add_one_of_ne_zero (Nat.ne_zero_of_lt hfuel)
      obtain ⟨k, f⟩ := m
      rw [memberTokens_cons, List.append_assoc]
      -- a key that cannot be read is a fault of the whole object
      cases k with
      | error e => exact meets_unread
      | ok k =>
          rw [gather?_cons]
          exact meets_member ((h s k f).bind (ih (Nat.lt_of_succ_lt_succ hfuel) false))

theorem length_memberTokens (first : Bool) (ms : Members) :
    ms.length ≤ (memberTokens first ms).length := by
  induction ms generalizing first with
  | nil => exact Nat.zero_le _
  | cons m ms ih =>
      have := ih false
      cases first <;> simp only [memberTokens, List.length_cons, List.length_append] <;> omega

/-- Behind its opening brace an object is read by gathering its members. -/
theorem meets_members (h : ∀ s k f, Meets (step s k) f.tokens (next s (k, f)))
    (ms : Members) (s : σ) :
    Meets (Reader.members step s) (memberTokens true ms ++ [.closeObject]) (gather? next s ms) := by
  have hlength := length_memberTokens true ms
  -- the fuel is the number of tokens, and every member has at least one
  have hmembers : ∀ rest, Meets (Reader.membersFrom step
      ((memberTokens true ms ++ [Token.closeObject] ++ rest).length + 1) true s)
      (memberTokens true ms ++ [Token.closeObject]) (gather? next s ms) := by
    intro rest
    refine meets_membersFrom h ?_ true s
    rw [List.length_append, List.length_append]
    omega
  exact Meets.fueled (x := fun fuel => Reader.membersFrom step fuel true s) hmembers

/-! ### Members that may be given once

Here the order of the members is forgotten. Filling in a member leaves what is under other keys, so
the fold looks at those with its key only; and it fails at the second of them. -/

/-- What a key is given: nothing, or the form under it, which can be read. It may be given once. -/
def only? (key : String) (read : Form → Option α) (ms : List (String × Form)) :
    Option (Option α) :=
  match ms.filter (·.1 = key) with
  | [] => some none
  | [m] => (read m.2).map some
  | _ => none

/-- One more member, for the one with the given key. -/
def fill (key : String) (read : Form → Option α) (before : Option α) (m : String × Form) :
    Option (Option α) :=
  if m.1 = key then if before.isSome then none else (read m.2).map some else some before

theorem fill_of_ne {read : Form → Option α} {key k : String} (h : k ≠ key) (before : Option α)
    (f : Form) : fill key read before (k, f) = some before :=
  if_neg h

theorem foldlM_fill_some (key : String) (read : Form → Option α) (a : α)
    (ms : List (String × Form)) :
    ms.foldlM (fill key read) (some a) =
      if (ms.filter (·.1 = key)).isEmpty then some (some a) else none := by
  induction ms with
  | nil => rfl
  | cons m ms ih =>
      rw [List.foldlM_cons, fill]
      by_cases hm : m.1 = key
      · simp [hm]
      · rw [if_neg hm, List.filter_cons_of_neg (by simpa using hm)]
        exact ih

/-- Gathering a member that may be given once. -/
theorem foldlM_fill (key : String) (read : Form → Option α) (ms : List (String × Form)) :
    ms.foldlM (fill key read) none = only? key read ms := by
  unfold only?
  induction ms with
  | nil => rfl
  | cons m ms ih =>
      rw [List.foldlM_cons, fill]
      by_cases hm : m.1 = key
      · rw [if_pos hm, List.filter_cons_of_pos (by simpa using hm)]
        -- Behind a member with this key there may be no other.
        cases hread : read m.2 <;> cases hmore : ms.filter (·.1 = key) <;>
          simp [foldlM_fill_some, hread, hmore]
      · rw [if_neg hm, List.filter_cons_of_neg (by simpa using hm)]
        exact ih

end

end Form

/-! ### Gathering several things at once

One fold over a record is several folds over its parts, as long as each part is filled in for
itself. The folds can fail, and it does not matter at which member the record fails, only
whether. -/

section

variable {α β γ σ ε : Type} {p : α → ε → Option α} {q : β → ε → Option β} {r : γ → ε → Option γ}

/-- Two things that are gathered for themselves are gathered together. -/
theorem foldlM_pair {m : α → β → σ} {step : σ → ε → Option σ}
    (h : ∀ a b e, step (m a b) e = (p a e).bind fun a => (q b e).map fun b => m a b)
    (es : List ε) (a : α) (b : β) :
    es.foldlM step (m a b) =
      (es.foldlM p a).bind fun a => (es.foldlM q b).map fun b => m a b := by
  induction es generalizing a b with
  | nil => rfl
  | cons e es ih =>
      rw [List.foldlM_cons, List.foldlM_cons, List.foldlM_cons, h]
      -- where one of the two fails on a member, both sides fail
      cases p a e with
      | none => rfl
      | some a' =>
          cases q b e with
          | none => cases hp : es.foldlM p a' <;> simp [hp]
          | some b' => exact ih a' b'

/-- Gathering two things for themselves. -/
def both (p : α → ε → Option α) (q : β → ε → Option β) (s : α × β) (e : ε) : Option (α × β) :=
  (p s.1 e).bind fun a => (q s.2 e).map fun b => (a, b)

theorem foldlM_both (es : List ε) (a : α) (b : β) :
    es.foldlM (both p q) (a, b) =
      (es.foldlM p a).bind fun a => (es.foldlM q b).map fun b => (a, b) :=
  foldlM_pair (fun _ _ _ => rfl) es a b

theorem foldlM_triple {m : α → β → γ → σ} {step : σ → ε → Option σ}
    (h : ∀ a b c e, step (m a b c) e =
      (p a e).bind fun a => (q b e).bind fun b => (r c e).map fun c => m a b c)
    (es : List ε) (a : α) (b : β) (c : γ) :
    es.foldlM step (m a b c) = (es.foldlM p a).bind fun a =>
      (es.foldlM q b).bind fun b => (es.foldlM r c).map fun c => m a b c := by
  -- The second and the third thing together make one.
  have hstep : ∀ a (bc : β × γ) e, step (m a bc.1 bc.2) e =
      (p a e).bind fun a => (both q r bc e).map fun bc => m a bc.1 bc.2 := by
    intro a bc e
    simp [h, both, Option.map_bind, Function.comp_def]
  have hall := foldlM_pair (m := fun a (bc : β × γ) => m a bc.1 bc.2) hstep es a (b, c)
  rw [hall, foldlM_both]
  simp [Option.map_bind, Function.comp_def]

end

end Outline.Json
