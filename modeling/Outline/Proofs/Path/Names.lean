import Mathlib.Data.List.Basic
import Mathlib.Data.List.Induction
import Outline.Proofs.FileSystem.Key
import Outline.Syntax.Languages

/-!
# Outline.Proofs.Path.Names

**The path of a location spells its names.** The text of `pathOf l` is cut at its slashes into
exactly the names of `l`, so its steps, its components and its last name are those of `l`, and
adding a name to the path is adding it to the location. Of a path in general, the names that are
left when all steps are taken are those of its normal form (`normalize_eq_foldl_steps`).

Paths are texts and locations are lists of names, and most of the library speaks of locations. This
module is where the two are tied together, once and for all texts: what is shown below of `pieces`
is shown by recursion over the characters, and nothing later looks at characters again.
-/

namespace Outline

/-- A name that something in a directory can have. -/
structure IsName (n : String) : Prop where
  slash : '/' ∉ n.toList
  nonempty : n.toList ≠ []
  here : n.toList ≠ ['.']
  up : n.toList ≠ ['.', '.']

/-- A location whose names are names. -/
def IsLocation (l : Location) : Prop := ∀ n ∈ l, IsName n

namespace IsLocation

variable {l : Location} {n : String}

/-- The root. -/
theorem nil : IsLocation [] := fun _ hn => absurd hn List.not_mem_nil

/-- A location with one more name. -/
theorem append (h : IsLocation l) (hn : IsName n) : IsLocation (l ++ [n]) := by
  intro k hk
  rcases List.mem_append.1 hk with hk | hk
  · exact h k hk
  · rwa [List.mem_singleton.1 hk]

/-- The location around it. -/
theorem dropLast (h : IsLocation l) : IsLocation l.dropLast :=
  fun n hn => h n (List.dropLast_subset _ hn)

end IsLocation

namespace Path

/-! ### Pieces between slashes

A text with slashes is cut into one piece more than it has slashes, so there is always a piece, and
pieces may be empty. To put names together with slashes and to cut them apart again gives the names,
unless there is none: the empty text has one empty piece. -/

/-- There is always a piece, the empty one at least. -/
theorem pieces_ne_nil (cs : List Char) : pieces cs ≠ [] := by
  cases cs with
  | nil => exact List.cons_ne_nil _ _
  | cons c cs =>
      rw [pieces]
      split
      · exact List.cons_ne_nil _ _
      · split <;> exact List.cons_ne_nil _ _

/-- Without a slash the text is one piece. -/
theorem pieces_of_notMem {cs : List Char} (h : '/' ∉ cs) : pieces cs = [cs] := by
  induction cs with
  | nil => rfl
  | cons c cs ih =>
      rw [List.mem_cons, not_or] at h
      rw [pieces, if_neg (Ne.symm h.1), ih h.2]

/-- A slash may be anywhere; what is in front of it and what is behind are cut apart. -/
theorem pieces_append_slash (cs rest : List Char) :
    pieces (cs ++ '/' :: rest) = pieces cs ++ pieces rest := by
  induction cs with
  | nil => rfl
  | cons c cs ih =>
      rw [List.cons_append, pieces, pieces, ih]
      split
      · rfl
      · cases hcs : pieces cs with
        | nil => exact absurd hcs (pieces_ne_nil cs)
        | cons piece ps => rfl

/-- Names that have no slash in them come out of their path as they went in. -/
theorem pieces_intercalate {l : List String} (h : IsLocation l) (hne : l ≠ []) :
    pieces (['/'].intercalate (l.map String.toList)) = l.map String.toList := by
  induction l with
  | nil => exact absurd rfl hne
  | cons n l ih =>
      obtain ⟨hn, hl⟩ := List.forall_mem_cons.1 h
      cases l with
      | nil =>
          rw [List.map_singleton, List.intercalate_singleton]
          exact pieces_of_notMem hn.slash
      | cons m l =>
          rw [List.map_cons, List.map_cons, List.intercalate_cons_cons, List.append_assoc,
            List.singleton_append, pieces_append_slash, pieces_of_notMem hn.slash, ← List.map_cons,
            ih hl (List.cons_ne_nil _ _)]
          rfl

end Path

namespace FileSystem

open Outline.Path (pieces)

variable {l : Location} {n : String}

/-! ### The path of a location

The root is spelled by a slash alone, every other location by a slash in front of each name. The
empty piece in front is what makes the path absolute; following the path and cutting it into
components both drop it, and for the root the empty piece behind the slash too. -/

/-- The characters of the path: a slash, and the names with slashes between them. -/
theorem toList_pathOf (l : Location) :
    (pathOf l).text.toList = '/' :: ['/'].intercalate (l.map String.toList) := by
  rw [pathOf, Path.ofNames, String.toList_append, String.toList_intercalate]
  rfl

/-- The pieces of the path: an empty one, and the names. -/
theorem pieces_pathOf (h : IsLocation l) :
    pieces (pathOf l).text.toList = [] :: if l = [] then [[]] else l.map String.toList := by
  rw [toList_pathOf, pieces, if_pos rfl]
  split
  · rename_i hnil
    rw [hnil]
    rfl
  · rename_i hne
    rw [Path.pieces_intercalate h hne]

/-- The path of a location starts at the root, so it does not matter where one is. -/
theorem isAbsolute_pathOf (l : Location) : (pathOf l).isAbsolute = true := by
  rw [Path.isAbsolute, toList_pathOf]
  rfl

theorem isEmpty_pathOf (l : Location) : (pathOf l).text.isEmpty = false := by
  cases h : (pathOf l).text.isEmpty with
  | false => rfl
  | true =>
      have hnil := toList_pathOf l
      rw [String.isEmpty_iff.1 h] at hnil
      cases hnil

/-- The path with one more name. The root has its slash already. -/
theorem text_pathOf_append (l : Location) (n : String) :
    (pathOf (l ++ [n])).text = if l = [] then "/" ++ n else (pathOf l).text ++ "/" ++ n := by
  rw [pathOf, Path.ofNames]
  split
  · rename_i hnil
    rw [hnil, List.nil_append, String.intercalate_singleton]
  · rename_i hne
    rw [String.intercalate_append_of_ne_nil hne (List.cons_ne_nil _ _),
      String.intercalate_singleton, pathOf, Path.ofNames, String.append_assoc, String.append_assoc,
      String.append_assoc]

/-- The text of a location ends in a slash for the root only. -/
theorem endsInSlash_pathOf (h : IsLocation l) : endsInSlash (pathOf l) = decide (l = []) := by
  cases l using List.reverseRecOn with
  | nil => rfl
  | append_singleton l n =>
      have hn := h n (List.mem_append_right l List.mem_cons_self)
      -- The last character is that of the last name, and a name has no slash.
      have hlast : (pathOf (l ++ [n])).text.toList.getLast? = n.toList.getLast? := by
        rw [text_pathOf_append]
        split <;> rw [String.toList_append, List.getLast?_append_of_ne_nil _ hn.nonempty]
      have hslash : n.toList.getLast? ≠ some '/' := fun hlast =>
        hn.slash (List.mem_of_getLast? hlast)
      rw [endsInSlash, hlast, decide_eq_false (by simp)]
      exact beq_eq_false_iff_ne.2 hslash

/-- A name is a step to itself: it is neither empty nor one of the dots. -/
theorem ofPiece?_toList (h : IsName n) : Step.ofPiece? n.toList = some (.name n) := by
  rw [Step.ofPiece?, if_neg h.nonempty, if_neg h.here, if_neg h.up, String.ofList_toList]

/-- The path of a location is followed by going from name to name. -/
theorem steps_pathOf (h : IsLocation l) : steps (pathOf l) = l.map .name := by
  have hnames : (l.map String.toList).filterMap Step.ofPiece? = l.map .name := by
    induction l with
    | nil => rfl
    | cons n l ih =>
        obtain ⟨hn, hl⟩ := List.forall_mem_cons.1 h
        rw [List.map_cons, List.filterMap_cons_some (ofPiece?_toList hn), ih hl, List.map_cons]
  rw [steps, pieces_pathOf h]
  split
  · rename_i hnil
    rw [hnil]
    rfl
  · exact hnames

/-- The components of the path are the root and the names. Steps and components are two readings of
one text, so both lemmas are needed. -/
theorem components_pathOf (h : IsLocation l) :
    (pathOf l).components = .root :: l.map .name := by
  have hnames : (l.map String.toList).filterMap Path.component? = l.map .name := by
    induction l with
    | nil => rfl
    | cons n l ih =>
        obtain ⟨hn, hl⟩ := List.forall_mem_cons.1 h
        have hcomponent : Path.component? n.toList = some (.name n) := by
          rw [Path.component?, if_neg (by simp [hn.nonempty, hn.here]), if_neg hn.up,
            String.ofList_toList]
        rw [List.map_cons, List.filterMap_cons_some hcomponent, ih hl, List.map_cons]
  rw [Path.components, if_pos (isAbsolute_pathOf l), pieces_pathOf h]
  split
  · rename_i hnil
    rw [hnil]
    rfl
  · exact congrArg _ hnames

/-- The last name of the location is what the path says the file is called. -/
theorem fileName?_pathOf_append (h : IsLocation (l ++ [n])) :
    (pathOf (l ++ [n])).fileName? = some n := by
  rw [Path.fileName?, components_pathOf h, List.map_append, ← List.cons_append,
    List.map_singleton, List.getLast?_concat]

/-- Different locations have different paths, however these are spelled. -/
theorem same_pathOf {k : Location} (hl : IsLocation l) (hk : IsLocation k) :
    (pathOf l).same (pathOf k) = true ↔ l = k := by
  have hname : Function.Injective Component.name := fun _ _ h => Component.name.inj h
  rw [Path.same, components_pathOf hl, components_pathOf hk, beq_iff_eq, List.cons.injEq,
    List.map_inj_right fun a b h => hname h]
  exact ⟨And.right, fun h => ⟨rfl, h⟩⟩

/-- A name as a path is relative. -/
theorem isAbsolute_mk (h : IsName n) : (Path.mk n).isAbsolute = false := by
  rw [Path.isAbsolute, beq_eq_false_iff_ne]
  exact fun hhead => h.slash (List.mem_of_mem_head? hhead)

/-- A relative path as seen from a location. -/
theorem join_pathOf_relative (hl : IsLocation l) {p : Path} (hp : p.isAbsolute = false) :
    (pathOf l).join p =
      ⟨if l = [] then "/" ++ p.text else (pathOf l).text ++ "/" ++ p.text⟩ := by
  have hslash : ((pathOf l).text.toList.getLast? == some '/') = decide (l = []) :=
    endsInSlash_pathOf hl
  rw [Path.join, hp, if_neg Bool.false_ne_true, isEmpty_pathOf, hslash, Bool.false_or]
  by_cases hnil : l = []
  · rw [if_pos (decide_eq_true hnil), if_pos hnil, hnil]
    rfl
  · rw [if_neg (by simpa using hnil), if_neg hnil]

/-- A name that is added to the path is added to the location. -/
theorem join_pathOf (hl : IsLocation l) (hn : IsName n) :
    (pathOf l).join ⟨n⟩ = pathOf (l ++ [n]) := by
  rw [join_pathOf_relative hl (isAbsolute_mk hn), ← text_pathOf_append]

/-- The language of a file depends on its name. -/
theorem ofPath?_pathOf_append (h : IsLocation (l ++ [n])) {p : Path} (hp : p.fileName? = some n) :
    Language.ofPath? (pathOf (l ++ [n])) = Language.ofPath? p := by
  rw [Language.ofPath?, Language.ofPath?, Path.extension?, Path.extension?,
    fileName?_pathOf_append h, hp]

/-! ### Paths in general

Here the path may be spelled in any way: with dots, with slashes one behind another or at the end.
Its steps are the same as its components but for the dots in front, which stay components; so the
normal form, which is made from components, can be told by steps. -/

/-- The names on the way of a path are names. -/
theorem isName_of_mem_steps {p : Path} (h : .name n ∈ steps p) : IsName n := by
  obtain ⟨piece, hpiece, hstep⟩ := List.mem_filterMap.1 h
  unfold Step.ofPiece? at hstep
  split at hstep
  · cases hstep
  · split at hstep
    · cases hstep
    · split at hstep
      · cases hstep
      -- All pieces that are no names have been taken for other steps.
      · rename_i hnil hhere hup
        cases hstep
        constructor <;> rw [String.toList_ofList]
        · exact Path.slash_notMem_pieces hpiece
        · exact hnil
        · exact hhere
        · exact hup

/-- A name that is added to a path is one more step. -/
theorem steps_join (dir : Path) (h : IsName n) : steps (dir.join ⟨n⟩) = steps dir ++ [.name n] := by
  have hstep : [n.toList].filterMap Step.ofPiece? = [.name n] :=
    List.filterMap_cons_some (ofPiece?_toList h)
  -- Whatever stands in front of the slash, its pieces come first.
  have hbehind : ∀ cs, (pieces (cs ++ '/' :: n.toList)).filterMap Step.ofPiece? =
      (pieces cs).filterMap Step.ofPiece? ++ [.name n] := by
    intro cs
    rw [Path.pieces_append_slash, Path.pieces_of_notMem h.slash, List.filterMap_append, hstep]
  rw [Path.join, isAbsolute_mk h, if_neg Bool.false_ne_true]
  split
  · rename_i hend
    -- No slash is put between them if the path is empty or ends in one.
    rcases Bool.or_eq_true_iff.1 hend with hempty | hslash
    · rw [steps, steps, String.isEmpty_iff.1 hempty, String.empty_append,
        Path.pieces_of_notMem h.slash, hstep]
      rfl
    · obtain ⟨cs, hcs⟩ := List.getLast?_eq_some_iff.1 (eq_of_beq hslash)
      have hdir : steps dir = (pieces cs).filterMap Step.ofPiece? := by
        rw [steps, hcs, Path.pieces_append_slash, List.filterMap_append]
        exact List.append_nil _
      rw [steps, String.toList_append, hcs, List.append_assoc, hdir]
      exact hbehind cs
  · rw [steps, String.toList_append, String.toList_append, List.append_assoc]
    exact hbehind _

/-- So it is the last step. -/
theorem getLast?_steps_join (dir : Path) (h : IsName n) :
    (steps (dir.join ⟨n⟩)).getLast? = some (.name n) := by
  rw [steps_join dir h, List.getLast?_concat]

/-- The names after one more step. -/
def Step.follow (names : List String) : Step → List String
  | .here => names
  | .up => names.dropLast
  | .name n => names ++ [n]

/-- Components and steps lead to the same names: a dot, which only the one reading has, leads
nowhere. By cases on what the piece can be. -/
theorem foldl_component_eq (ps : List (List Char)) (names : List String) :
    (ps.filterMap Path.component?).foldl Component.follow names =
      (ps.filterMap Step.ofPiece?).foldl Step.follow names := by
  induction ps generalizing names with
  | nil => rfl
  | cons piece ps ih =>
      rw [List.filterMap_cons, List.filterMap_cons, Path.component?, Step.ofPiece?]
      by_cases hnil : piece = []
      · simp only [hnil, decide_true, Bool.true_or, if_true, ih]
      · by_cases hhere : piece = ['.']
        · simp [hhere, ih, Step.follow]
        · by_cases hup : piece = ['.', '.']
          · simp [hup, ih, Step.follow, Component.follow]
          · simp [hnil, hhere, hup, ih, Step.follow, Component.follow]

/-- The normal form of a path has the names that are left when all its steps are taken. -/
theorem normalize_eq_foldl_steps (fs : FileSystem) (p : Path) :
    p.normalize fs.current = (steps p).foldl Step.follow (fs.start p) := by
  rw [Path.normalize, Path.components, start, steps, ← foldl_component_eq]
  split
  · rfl
  · split
    · rfl
    · rfl

/-- Names that are followed are put behind those that are there. -/
theorem foldl_follow_names (l names : List String) :
    (l.map Step.name).foldl Step.follow names = names ++ l := by
  induction l generalizing names with
  | nil => exact (List.append_nil names).symm
  | cons n l ih =>
      rw [List.map_cons, List.foldl_cons, ih]
      exact (List.append_cons names n l).symm

/-- The path of a location is in normal form. -/
theorem normalize_pathOf (h : IsLocation l) (base : List String) :
    (pathOf l).normalize base = l := by
  rw [normalize_eq_foldl_steps { current := base }, start, isAbsolute_pathOf, if_pos rfl,
    steps_pathOf h, foldl_follow_names, List.nil_append]

end FileSystem

end Outline
