import Mathlib.Logic.Function.Iterate
import Outline.Syntax.Walk

/-!
# Outline.Proofs.Syntax.Walk

**The walk of a cursor is a recursion over the tree.** `Language.gather` says what the declarations
of a node are by recursion on the node; the walk has a cursor and a stack of frames instead. The two
are compared through `Walker.pending`: what the recursion would still gather from where the cursor
stands, in the scopes that the frames make. One step moves declarations from `pending` to those
that were met and changes nothing else (`Walker.Sound.step`), so at the end all of them are met.

The frames are in step with the cursor (`Walker.Sound`): there is one for each level between the
root and the place where the cursor stands, and the last is the frame of the file.
-/

namespace Outline

namespace Language

mutual

/-- The declarations of a node and of all below it, in document order. -/
def gather (l : Language) (source : Bytes) (scope : Scope) (parentKind : String) :
    SyntaxNode → List Entry
  | .mk field kind named start stop row children =>
    if named then
      match l.entry? ⟨.mk field kind named start stop row children, parentKind, source⟩ scope with
      | some e => e :: l.gatherAll source (scope.inside e) kind children
      | none => l.gatherAll source scope kind children
    else []

/-- The declarations of siblings and of all below them, in document order. -/
def gatherAll (l : Language) (source : Bytes) (scope : Scope) (parentKind : String) :
    List SyntaxNode → List Entry
  | [] => []
  | n :: ns => l.gather source scope parentKind n ++ l.gatherAll source scope parentKind ns

end

variable {l : Language} {source : Bytes}

/-- A bare token is skipped with all below it. -/
theorem gather_of_token {n : SyntaxNode} (h : n.named = false) (scope : Scope)
    (parentKind : String) : l.gather source scope parentKind n = [] := by
  obtain ⟨⟩ := n
  obtain rfl := h
  rfl

/-- What a construct declares comes before what is declared inside. -/
theorem gather_of_some {n : SyntaxNode} {scope : Scope} {parentKind : String} {e : Entry}
    (h : n.named = true) (he : l.entry? ⟨n, parentKind, source⟩ scope = some e) :
    l.gather source scope parentKind n =
      e :: l.gatherAll source (scope.inside e) n.kind n.children := by
  obtain ⟨⟩ := n
  obtain rfl := h
  rw [gather, if_pos rfl, he]
  rfl

/-- A construct that declares nothing leaves the scope as it is. -/
theorem gather_of_none {n : SyntaxNode} {scope : Scope} {parentKind : String}
    (h : n.named = true) (he : l.entry? ⟨n, parentKind, source⟩ scope = none) :
    l.gather source scope parentKind n = l.gatherAll source scope n.kind n.children := by
  obtain ⟨⟩ := n
  obtain rfl := h
  rw [gather, if_pos rfl, he]
  rfl

mutual

/-- No construct declares more than one thing, so a node has no more declarations than a walk
through it has steps. -/
theorem length_gather_le (l : Language) (source : Bytes) : ∀ (scope : Scope) (parentKind : String)
    (n : SyntaxNode), (l.gather source scope parentKind n).length ≤ n.weight
  | scope, parentKind, .mk field kind named start stop row children => by
      rw [gather, SyntaxNode.weight]
      split
      · split
        · rename_i e _
          have hinside := length_gatherAll_le l source (scope.inside e) kind children
          rw [List.length_cons]
          omega
        · have hinside := length_gatherAll_le l source scope kind children
          omega
      · exact Nat.zero_le _

theorem length_gatherAll_le (l : Language) (source : Bytes) : ∀ (scope : Scope)
    (parentKind : String) (ns : List SyntaxNode),
    (l.gatherAll source scope parentKind ns).length ≤ SyntaxNode.weights ns
  | _, _, [] => Nat.le_refl 0
  | scope, parentKind, n :: ns => by
      have hfirst := length_gather_le l source scope parentKind n
      have hrest := length_gatherAll_le l source scope parentKind ns
      rw [gatherAll, List.length_append, SyntaxNode.weights]
      omega

end

end Language

namespace Walker

variable {l : Language} {source : Bytes}

/-! ### What is still to be met

### What is still to be met

Frames and cursor have one thing in common: how far they are from the root. So the scopes of the
frames can be dealt out to the levels of the cursor, from the innermost outward. -/

/-- The scopes that the frames make. -/
def scopes (w : Walker) : List Scope := w.frames.map (·.scope w.met)

/-- What is gathered behind a node and all below it: from its siblings in the innermost scope, then
behind its parent in the scopes around. -/
def pendingBehind (l : Language) (source : Bytes) : List Scope → Cursor → List Entry
  | [], _ => []
  | s :: ss, c => l.gatherAll source s c.parentKind c.behind ++
    match c.parent? with
    | some p => pendingBehind l source ss p
    | none => []

/-- What is gathered from where the walk stands. -/
def pending (l : Language) (source : Bytes) (w : Walker) : List Entry :=
  match w.place, w.scopes with
  | some c, s :: ss => l.gather source s c.parentKind c.node ++ pendingBehind l source (s :: ss) c
  | _, _ => []

/-- The frames are in step with the cursor. -/
structure Sound (w : Walker) : Prop where
  /-- There is a frame for each level between the root and the cursor. -/
  level : ∀ c, w.place = some c → w.frames.length = c.above.length
  /-- When the walk is over, only the frame of the file is left. -/
  finished : w.place = none → w.frames.length = 1
  /-- The last frame is that of the file. -/
  bottom : w.frames.getLast? = some .file
  /-- The declaration that a frame belongs to was met. -/
  owner : ∀ f ∈ w.frames, ∀ i : Nat, f.owner = some i → i < w.met.size

theorem Sound.ne_nil {w : Walker} (h : w.Sound) : w.frames ≠ [] := by
  intro hnil
  have := h.bottom
  rw [hnil] at this
  cases this

/-! ### Going onward

### Going onward

After a node without children the cursor goes to the next sibling, or climbs until there is one.
Each level that it climbs has nothing left behind it, so nothing pending is lost with the frame. -/

theorem met_onward (c : Cursor) (w : Walker) : (onward c w).met = w.met := by
  fun_induction onward c w with
  | case1 => rfl
  | case2 => rfl
  | case3 => rfl
  | case4 c w _ _ p hp _ ih => exact ih

/-- Dropping the innermost frame leaves the last one, if there is another. -/
theorem getLast?_tail {fs : List Frame} (h : fs.length ≠ 1) (hne : fs ≠ []) :
    fs.tail.getLast? = fs.getLast? := by
  match fs, h, hne with
  | _ :: g :: gs, _, _ => rw [List.tail_cons, List.getLast?_cons_cons]

/-- Climbing drops one frame for each level, and never the last. -/
theorem sound_onward {c : Cursor} {w : Walker} (hlevel : w.frames.length = c.above.length)
    (hbottom : w.frames.getLast? = some .file)
    (howner : ∀ f ∈ w.frames, ∀ i : Nat, f.owner = some i → i < w.met.size) :
    (onward c w).Sound := by
  have hne : w.frames ≠ [] := by
    intro hnil
    rw [hnil] at hbottom
    cases hbottom
  fun_induction onward c w with
  | case1 c w d hd =>
      refine ⟨?_, fun h => absurd h (Option.some_ne_none d), hbottom, howner⟩
      rintro _ ⟨⟩
      rw [hlevel, (Cursor.of_nextSibling?_eq_some hd).2]
  | case2 c w _ hone =>
      exact ⟨fun d h => absurd h.symm (Option.some_ne_none d), fun _ => hone, hbottom, howner⟩
  | case3 c w _ _ hp =>
      -- At the root there would be no frame at all.
      rw [Cursor.of_parent?_eq_none hp] at hlevel
      exact absurd (List.length_eq_zero_iff.1 hlevel) hne
  | case4 c w _ hone p hp _ ih =>
      have htail := getLast?_tail hone hne
      refine ih ?_ (htail.trans hbottom) (fun f hf => howner f (List.mem_of_mem_tail hf)) ?_
      · rw [List.length_tail, hlevel, Cursor.of_parent?_eq_some hp]
        rfl
      · intro hnil
        rw [show w.frames.tail = [] from hnil, hbottom] at htail
        cases htail

/-- Going onward, what is pending is what is gathered behind. -/
theorem pending_onward {c : Cursor} {w : Walker} (hlevel : w.frames.length = c.above.length)
    (hne : w.frames ≠ []) :
    (onward c w).pending l source = pendingBehind l source w.scopes c := by
  fun_induction onward c w with
  | case1 c w d hd =>
      obtain ⟨hbehind, habove⟩ := Cursor.of_nextSibling?_eq_some hd
      obtain ⟨f, fs, hf⟩ := List.exists_cons_of_ne_nil hne
      have hkind : d.parentKind = c.parentKind := by
        rw [Cursor.parentKind, habove, Cursor.parentKind]
      have hparent : d.parent? = c.parent? := by rw [Cursor.parent?, habove, Cursor.parent?]
      simp only [pending, scopes, hf, List.map_cons, pendingBehind, hbehind, hkind, hparent,
        Language.gatherAll, List.append_assoc]
  | case2 c w hnext hone =>
      obtain ⟨f, hf⟩ := List.length_eq_one_iff.1 hone
      simp only [pending, scopes, hf, List.map_cons, List.map_nil, pendingBehind,
        Cursor.of_nextSibling?_eq_none hnext, Language.gatherAll, List.nil_append]
      cases c.parent? <;> rfl
  | case3 c w _ _ hp =>
      rw [Cursor.of_parent?_eq_none hp] at hlevel
      exact absurd (List.length_eq_zero_iff.1 hlevel) hne
  | case4 c w hnext hone p hp _ ih =>
      obtain ⟨f, fs, hf⟩ := List.exists_cons_of_ne_nil hne
      rw [hf] at hone
      have hlevel' : w.frames.tail.length = p.above.length := by
        rw [List.length_tail, hlevel, Cursor.of_parent?_eq_some hp]
        rfl
      have hne' : w.frames.tail ≠ [] := by
        rw [hf, List.tail_cons]
        rintro rfl
        exact hone rfl
      -- No sibling is left, and with the frame of this level the climb drops its scope.
      rw [ih hlevel' hne']
      simp only [scopes, hf, List.tail_cons, List.map_cons, pendingBehind,
        Cursor.of_nextSibling?_eq_none hnext, Language.gatherAll, List.nil_append, hp]

/-! ### One step

### One step

A visit adds a declaration or none. Either way the recursion would do the same with the node, and
the scopes around it do not change, since a frame refers to its declaration by number. -/

/-- What holds of a visit: the declaration, if there is one, is met, and what is below the node is
gathered in the scope of the new frame as the recursion says. -/
theorem visit_gather {c : Cursor} {f : Frame} {met : Array Entry} (hnamed : c.node.named = true) :
    (visit l source c f met).1.toList ++ l.gatherAll source
        ((visit l source c f met).2.scope (visit l source c f met).1) c.node.kind c.node.children =
      met.toList ++ l.gather source (f.scope met) c.parentKind c.node := by
  unfold visit
  split
  · rename_i e he
    have hscope : Frame.scope ⟨f.depth + 1, e.kind, some met.size⟩ (met.push e) =
        (f.scope met).inside e := by
      simp [Frame.scope, Scope.inside]
    rw [Language.gather_of_some hnamed he, hscope, Array.toList_push, List.append_assoc]
    rfl
  · rename_i he
    rw [Language.gather_of_none hnamed he]

/-- A visit adds at most one declaration, and the new frame belongs to it or is the old one. -/
theorem visit_cases (l : Language) (source : Bytes) (c : Cursor) (f : Frame) (met : Array Entry) :
    visit l source c f met = (met, f) ∨
      ∃ e, visit l source c f met = (met.push e, ⟨f.depth + 1, e.kind, some met.size⟩) := by
  unfold visit
  split
  · rename_i e _
    exact .inr ⟨e, rfl⟩
  · exact .inl rfl

/-- A frame keeps its scope while more declarations are met. -/
theorem scope_push {f : Frame} {met : Array Entry} (h : ∀ i : Nat, f.owner = some i → i < met.size)
    (e : Entry) : f.scope (met.push e) = f.scope met := by
  unfold Frame.scope
  cases howner : f.owner with
  | none => rfl
  | some i => rw [Option.bind_some, Option.bind_some, Array.getElem?_push_lt (h i howner),
      Array.getElem?_eq_getElem (h i howner)]

theorem scopes_visit {c : Cursor} {f : Frame} {w : Walker} (h : w.Sound) :
    w.frames.map (·.scope (visit l source c f w.met).1) = w.scopes := by
  refine List.map_congr_left fun g hg => ?_
  rcases visit_cases l source c f w.met with hv | ⟨e, hv⟩
  · rw [hv]
  · rw [hv]
    exact scope_push (h.owner g hg) e

/-- The frames still belong to declarations that were met, the new one included. -/
theorem owner_visit {c : Cursor} {f : Frame} {w : Walker} (h : w.Sound) (hf : f ∈ w.frames) :
    ∀ g, g = (visit l source c f w.met).2 ∨ g ∈ w.frames → ∀ i : Nat, g.owner = some i →
      i < (visit l source c f w.met).1.size := by
  intro g hg i hi
  rcases visit_cases l source c f w.met with hv | ⟨e, hv⟩
  · rw [hv] at hg ⊢
    rcases hg with rfl | hg
    · exact h.owner _ hf i hi
    · exact h.owner g hg i hi
  · rw [hv] at hg ⊢
    rw [Array.size_push]
    rcases hg with rfl | hg
    · cases hi
      exact Nat.lt_succ_self _
    · exact Nat.lt_succ_of_lt (h.owner g hg i hi)

/-- **One step.** The frames stay in step with the cursor, and what is met together with what is
pending stays the same. -/
theorem Sound.step {w : Walker} (h : w.Sound) {c : Cursor} (hc : w.place = some c) :
    (w.step l source).Sound ∧
      (w.step l source).met.toList ++ (w.step l source).pending l source =
        w.met.toList ++ w.pending l source := by
  obtain ⟨f, fs, hf⟩ := List.exists_cons_of_ne_nil h.ne_nil
  have hlevel := h.level c hc
  have hmem : f ∈ w.frames := by
    rw [hf]
    exact List.mem_cons_self
  have hpending : w.pending l source =
      l.gather source (f.scope w.met) c.parentKind c.node ++
        pendingBehind l source w.scopes c := by
    simp only [pending, hc, scopes, hf, List.map_cons]
  rw [hpending]
  by_cases hnamed : c.node.named = true
  · have hgather := @visit_gather l source c f w.met hnamed
    have hscopes := @scopes_visit l source c f w h
    have howner := @owner_visit l source c f w h hmem
    -- From here on only what is known of the visit matters, not how it is made.
    generalize hv : visit l source c f w.met = v at hgather hscopes howner
    cases hd : c.firstChild? with
    | some d =>
        have hstep : w.step l source = ⟨some d, v.2 :: f :: fs, v.1⟩ := by
          simp only [Walker.step, hc, hf, hnamed, if_true, hv, hd]
        obtain ⟨hchildren, habove⟩ := Cursor.of_firstChild?_eq_some hd
        have hparent : d.parent? = some c := by
          rw [Cursor.parent?, habove]
        have hkind : d.parentKind = c.node.kind := by
          rw [Cursor.parentKind, habove]
        rw [hstep]
        refine ⟨⟨?_, fun h => absurd h (Option.some_ne_none d), ?_, ?_⟩, ?_⟩
        · rintro _ ⟨⟩
          rw [habove, ← hf, List.length_cons, List.length_cons, hlevel]
        · rw [List.getLast?_cons_cons, ← hf]
          exact h.bottom
        · intro g hg
          rw [← hf] at hg
          exact howner g (List.mem_cons.1 hg)
        · have hnext : pending l source ⟨some d, v.2 :: f :: fs, v.1⟩ =
              l.gatherAll source (v.2.scope v.1) c.node.kind c.node.children ++
                pendingBehind l source w.scopes c := by
            rw [← hscopes, hf, hchildren]
            simp only [pending, scopes, List.map_cons, pendingBehind, hparent, hkind,
              Language.gatherAll, List.append_assoc]
          rw [hnext, ← List.append_assoc, hgather, List.append_assoc]
    | none =>
        have hstep : w.step l source = onward c { w with met := v.1 } := by
          simp only [Walker.step, hc, hf, hnamed, if_true, hv, hd]
        rw [Cursor.of_firstChild?_eq_none hd, Language.gatherAll, List.append_nil] at hgather
        have hbehind : (onward c { w with met := v.1 }).pending l source =
            pendingBehind l source (w.frames.map (·.scope v.1)) c :=
          pending_onward hlevel h.ne_nil
        rw [hstep, met_onward, hbehind, hscopes, ← List.append_assoc, ← hgather]
        exact ⟨sound_onward hlevel h.bottom fun g hg => howner g (.inr hg), rfl⟩
  · have hstep : w.step l source = onward c w := by
      simp only [Walker.step, hc, hf, hnamed]
      rfl
    rw [hstep, met_onward, pending_onward hlevel h.ne_nil,
      Language.gather_of_token (Bool.eq_false_iff.2 hnamed), List.nil_append]
    exact ⟨sound_onward hlevel h.bottom h.owner, rfl⟩

/-! ### The whole walk

### The whole walk

The walk ends because the cursor only goes forward (`Language.walk`), so the induction is that of
its own definition. -/

theorem step_of_none {w : Walker} (h : w.place = none) : w.step l source = w := by
  cases w
  cases h
  rfl

theorem pending_of_none {w : Walker} (h : w.place = none) : w.pending l source = [] := by
  rw [pending, h]

theorem Sound.iterate {w : Walker} (h : w.Sound) (k : Nat) :
    ((Walker.step l source)^[k] w).Sound := by
  induction k generalizing w with
  | zero => exact h
  | succ k ih =>
      rw [Function.iterate_succ_apply]
      refine ih ?_
      cases hc : w.place with
      | none =>
          rw [step_of_none hc]
          exact h
      | some c => exact (h.step hc).1

/-- The walk comes to its end, and what it has met there is what the recursion gathers. -/
theorem Sound.exists_iterate {w : Walker} (h : w.Sound) :
    ∃ k, ((Walker.step l source)^[k] w).place = none ∧
      ((Walker.step l source)^[k] w).met = l.walk source w ∧
      (l.walk source w).toList = w.met.toList ++ w.pending l source := by
  fun_induction Language.walk l source w with
  | case1 w hc =>
      refine ⟨0, hc, rfl, ?_⟩
      rw [pending_of_none hc, List.append_nil]
  | case2 w c hc _ ih =>
      obtain ⟨hsound, hmet⟩ := h.step hc
      obtain ⟨k, hplace, hwalk, hlist⟩ := ih hsound
      exact ⟨k + 1, hplace, hwalk, hlist.trans hmet⟩

theorem sound_atStart (l : Language) (fileName : String) (t : SyntaxTree) :
    (l.atStart fileName t).Sound where
  level c hc := by rw [(Cursor.of_firstChild?_eq_some hc).2]; rfl
  finished _ := rfl
  bottom := rfl
  owner f hf i hi := by
    rw [List.mem_singleton.1 hf] at hi
    cases hi

/-- At the start of a file everything below its root is pending. -/
theorem pending_atStart (l : Language) (fileName : String) (source : Bytes) (t : SyntaxTree) :
    (l.atStart fileName t).pending l source =
      l.gatherAll source .file t.root.kind t.root.children := by
  unfold Language.atStart
  cases hd : Cursor.firstChild? ⟨t.root, [], []⟩ with
  | none =>
      rw [Cursor.of_firstChild?_eq_none hd]
      rfl
  | some d =>
      obtain ⟨hchildren, habove⟩ := Cursor.of_firstChild?_eq_some hd
      have hkind : d.parentKind = t.root.kind := by rw [Cursor.parentKind, habove]
      rw [show t.root.children = d.node :: d.behind from hchildren, ← hkind]
      simp only [pending, scopes, List.map_cons, List.map_nil, pendingBehind, Language.gatherAll]
      cases d.parent? <;> simp only [List.append_nil] <;> rfl

end Walker

/-- The declarations of a file are the file and what is gathered from the children of its root. -/
theorem Language.listing_eq (l : Language) (fileName : String) (source : Bytes) (t : SyntaxTree) :
    l.listing fileName source t = l.fileEntry fileName t.hasError ::
      l.gatherAll source .file t.root.kind t.root.children := by
  obtain ⟨-, -, -, hlist⟩ :=
    @Walker.Sound.exists_iterate l source _ (Walker.sound_atStart l fileName t)
  rw [listing, hlist, Walker.pending_atStart]
  rfl

/-- A listing is no longer than the tree is large. -/
theorem Language.length_listing_le (l : Language) (fileName : String) (source : Bytes)
    (t : SyntaxTree) : (l.listing fileName source t).length ≤ t.root.weight := by
  have hinside := l.length_gatherAll_le source .file t.root.kind t.root.children
  have hroot := t.root.weights_children_lt
  rw [listing_eq, List.length_cons]
  omega

end Outline
