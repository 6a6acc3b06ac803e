import Outline.Json.Reader
import Outline.Proofs.Json.Tokens

/-!
# Outline.Proofs.Json.Reading

**Readers take from the tokens what was written.** `Reads value ts a` says that the reader takes
exactly the tokens `ts`, whatever follows them, and comes to `a`. Two loops are described once for
all that is read with them: `Reads.items` for arrays, where every item is read for itself, and
`Reads.members` for objects, where the members are gathered one after another (`Gathers`).
-/

namespace Outline.Json

/-- The reader takes the tokens `ts` and comes to `a`. -/
def Reads {α : Type} (value : Reader α) (ts : List Token) (a : α) : Prop :=
  ∀ rest, value (ts ++ rest) = .ok (a, rest)

section

variable {α β σ : Type}

theorem Reads.pure (a : α) : Reads (Pure.pure a) [] a := fun _ => rfl

/-- Reading one thing after another. -/
theorem Reads.bind {x : Reader α} {f : α → Reader β} {ts us : List Token} {a : α} {b : β}
    (hx : Reads x ts a) (hf : Reads (f a) us b) : Reads (x >>= f) (ts ++ us) b := by
  intro rest
  show (x (ts ++ us ++ rest)).bind (fun p => f p.1 p.2) = _
  rw [List.append_assoc, hx]
  exact hf rest

/-- Going on without taking any more tokens. -/
theorem Reads.last {x : Reader α} {f : α → Reader β} {ts : List Token} {a : α} {b : β}
    (hx : Reads x ts a) (hf : Reads (f a) [] b) : Reads (x >>= f) ts b := by
  rw [← List.append_nil ts]
  exact hx.bind hf

theorem Reads.next {f : Token → Reader β} {t : Token} {us : List Token} {b : β}
    (hf : Reads (f t) us b) : Reads (Reader.next >>= f) (t :: us) b := hf

theorem Reads.text (s : String) : Reads Reader.text [.string (.ok s) none] s := fun _ => rfl

theorem Reads.nat32 {n : Nat} (h : n < Nat.pow 2 32) :
    Reads Reader.nat32 [.number (.ok (some n)) none] n := by
  intro rest
  show (if n < Nat.pow 2 32 then Pure.pure n else throw Fault.mismatched : Reader Nat) rest = _
  rw [if_pos h]
  rfl

/-! ### Items

### Items

The loop over the items stops when its fuel runs out, so the induction is over the items with any
fuel that is more than their number. How commas stand between items is settled first. -/

/-- A token that may begin a value. -/
def Token.Begins : Token → Prop
  | .closeArray | .closeObject | .comma => False
  | _ => True

/-- A value has at least one token, and the first is none that stands between values. -/
theorem Value.tokens_begin (v : Value) : ∃ t ts, v.tokens = t :: ts ∧ t.Begins := by
  cases v <;> exact ⟨_, _, rfl, trivial⟩

theorem Reader.nextItem_comma {t : Token} (h : t.Begins) (ts : List Token) :
    Reader.nextItem false (.comma :: t :: ts) = .ok (true, t :: ts) := by
  cases t <;> first | rfl | cases h

theorem Reader.nextItem_first {t : Token} (h : t.Begins) (ts : List Token) :
    Reader.nextItem true (t :: ts) = .ok (true, t :: ts) := by
  cases t <;> first | rfl | cases h

/-- One more item, behind its comma unless it is the first. -/
theorem Reader.nextItem_written (first : Bool) (v : Value) (vs : List Value) (rest : List Token) :
    Reader.nextItem first (Value.itemTokens first (v :: vs) ++ rest) =
      .ok (true, v.tokens ++ (Value.itemTokens false vs ++ rest)) := by
  obtain ⟨t, ts, hv, ht⟩ := v.tokens_begin
  cases first with
  | true =>
      rw [Value.itemTokens, hv, List.append_assoc]
      exact Reader.nextItem_first ht _
  | false =>
      rw [Value.itemTokens, hv, List.append_assoc]
      exact Reader.nextItem_comma ht _

/-- If every item is read, the items are read. -/
theorem Reads.itemsFrom {item : Reader α} {w : α → Value} {as : List α}
    (h : ∀ a ∈ as, Reads item (w a).tokens a) {fuel : Nat} (hfuel : as.length < fuel)
    (first : Bool) :
    Reads (Reader.itemsFrom item fuel first)
      (Value.itemTokens first (as.map w) ++ [.closeArray]) as := by
  induction as generalizing fuel first with
  | nil =>
      obtain ⟨fuel, rfl⟩ := Nat.exists_eq_add_one_of_ne_zero (Nat.ne_zero_of_lt hfuel)
      intro rest
      cases first <;> rfl
  | cons a as ih =>
      obtain ⟨fuel, rfl⟩ := Nat.exists_eq_add_one_of_ne_zero (Nat.ne_zero_of_lt hfuel)
      have has := ih (fun b hb => h b (List.mem_cons_of_mem _ hb))
        (Nat.lt_of_succ_lt_succ hfuel) false
      intro rest
      -- One turn of the loop: the comma, the item, and what is left for the turns that follow.
      have hnext := Reader.nextItem_written first (w a) (as.map w) ([.closeArray] ++ rest)
      have ha := h a List.mem_cons_self (Value.itemTokens false (as.map w) ++
        ([.closeArray] ++ rest))
      have hrest := has rest
      rw [List.append_assoc] at hrest ⊢
      rw [List.map_cons, Reader.itemsFrom]
      simp only [Bind.bind, StateT.bind, Except.bind, hnext, ite_true, ha, hrest]
      rfl

theorem Value.length_itemTokens (first : Bool) (vs : List Value) :
    vs.length ≤ (Value.itemTokens first vs).length := by
  induction vs generalizing first with
  | nil => exact Nat.zero_le _
  | cons v vs ih =>
      obtain ⟨t, ts, hv, -⟩ := v.tokens_begin
      have := ih false
      cases first <;> simp only [Value.itemTokens, hv, List.length_cons, List.length_append] <;>
        omega

/-- An array is read if every item is. -/
theorem Reads.items {item : Reader α} {w : α → Value} {as : List α}
    (h : ∀ a ∈ as, Reads item (w a).tokens a) :
    Reads (Reader.items item) (Value.arr (as.map w)).tokens as := by
  intro rest
  have hlength := Value.length_itemTokens true (as.map w)
  rw [List.length_map] at hlength
  -- The fuel is the number of tokens, and every item has at least one.
  refine Reads.itemsFrom h ?_ true rest
  show as.length < (Value.itemTokens true (as.map w) ++ [Token.closeArray] ++ rest).length + 1
  rw [List.length_append, List.length_append]
  omega

/-! ### Members

### Members

The members of an object are not values for themselves: each changes what has been gathered. So the
induction is over the gathering, and not over the members. -/

/-- Gathering the members one after another, from `s` to `s'`. -/
inductive Gathers (step : σ → String → Reader σ) : σ → List (String × Value) → σ → Prop where
  | nil (s : σ) : Gathers step s [] s
  | cons {s r s' : σ} {k : String} {v : Value} {ms : List (String × Value)}
      (hv : Reads (step s k) v.tokens r) (hms : Gathers step r ms s') :
      Gathers step s ((k, v) :: ms) s'

/-- One more key with its colon, behind its comma unless it is the first. -/
theorem Reader.nextKey_written (first : Bool) (k : String) (v : Value)
    (ms : List (String × Value)) (rest : List Token) :
    Reader.nextKey first (Value.memberTokens first ((k, v) :: ms) ++ rest) =
      .ok (some k, v.tokens ++ (Value.memberTokens false ms ++ rest)) := by
  cases first <;> (rw [← List.append_assoc]; rfl)

theorem Reads.membersFrom {step : σ → String → Reader σ} {s s' : σ}
    {ms : List (String × Value)} (h : Gathers step s ms s') {fuel : Nat}
    (hfuel : ms.length < fuel) (first : Bool) :
    Reads (Reader.membersFrom step fuel first s)
      (Value.memberTokens first ms ++ [.closeObject]) s' := by
  induction h generalizing fuel first with
  | nil s =>
      obtain ⟨fuel, rfl⟩ := Nat.exists_eq_add_one_of_ne_zero (Nat.ne_zero_of_lt hfuel)
      intro rest
      cases first <;> rfl
  | @cons s r s' k v ms hv _ ih =>
      obtain ⟨fuel, rfl⟩ := Nat.exists_eq_add_one_of_ne_zero (Nat.ne_zero_of_lt hfuel)
      intro rest
      have hnext := Reader.nextKey_written first k v ms ([.closeObject] ++ rest)
      have hstep := hv (Value.memberTokens false ms ++ ([.closeObject] ++ rest))
      have hrest := ih (Nat.lt_of_succ_lt_succ hfuel) false rest
      rw [List.append_assoc] at hrest ⊢
      rw [Reader.membersFrom]
      simp only [Bind.bind, StateT.bind, Except.bind, hnext, hstep, hrest]

theorem Value.length_memberTokens (first : Bool) (ms : List (String × Value)) :
    ms.length ≤ (Value.memberTokens first ms).length := by
  induction ms generalizing first with
  | nil => exact Nat.zero_le _
  | cons m ms ih =>
      have := ih false
      cases first <;> simp only [Value.memberTokens, List.length_cons, List.length_append] <;>
        omega

/-- Behind its opening brace an object is read by gathering its members. -/
theorem Reads.members {step : σ → String → Reader σ} {s s' : σ} {ms : List (String × Value)}
    (h : Gathers step s ms s') :
    Reads (Reader.members step s) (Value.memberTokens true ms ++ [.closeObject]) s' := by
  intro rest
  have hlength := Value.length_memberTokens true ms
  refine Reads.membersFrom h ?_ true rest
  simp only [List.length_append]
  omega

/-- A text is read if its tokens are. -/
theorem Reads.run {value : Reader α} {v : Value} {a : α} (hv : v.Plain)
    (h : Reads value v.tokens a) : Reader.run value v.compact.toUTF8.toList = .ok a := by
  have hvalue := h []
  rw [List.append_nil] at hvalue
  rw [Reader.run, Value.tokens_compact hv, hvalue]

end

end Outline.Json
