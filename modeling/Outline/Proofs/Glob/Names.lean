import Mathlib.Data.List.TakeWhile
import Outline.Glob.Reader
import Outline.Proofs.FileSystem.Key
import Outline.Proofs.Text.Encoding

/-!
# Outline.Proofs.Glob.Names

**Globs that read the name only.** A glob is compared with a whole path, so it may see the
directories in front of the name. It does not if it consists of plain characters of a name behind a
directory wildcard or a run (`ReadsName.of_plain`): plain characters take exactly themselves
(`nil_mem_restsAll_literals`), and what is left to them is the end of the path behind the last
separator.

A glob is matched piece by piece, where each piece may take more or less and leaves several rests. A
path is accepted if nothing is left behind the last piece. For the pieces that occur here the rests
are described by equations on lists, and the path enters only as `dir ++ separator :: name`.
-/

namespace Outline.Glob

open Outline.Text (bytesOf)

/-! ### What is left by a sequence

The rests of many words are those of each of them, so it is enough to follow one. -/

/-- What is left of some words is left of one of them. -/
theorem mem_restsAll {ps : List Piece} {ws : List (List UInt8)} {r : List UInt8} :
    r ∈ restsAll ps ws ↔ ∃ w ∈ ws, r ∈ restsAll ps [w] := by
  induction ps generalizing ws with
  | nil => simp [restsAll]
  | cons p ps ih =>
      rw [restsAll, ih]
      constructor
      · intro h
        obtain ⟨u, hu, hr⟩ := h
        obtain ⟨w, hw, hu⟩ := List.mem_flatMap.1 (List.mem_eraseDups.1 hu)
        refine ⟨w, hw, ?_⟩
        rw [restsAll, ih]
        exact ⟨u, by simpa using hu, hr⟩
      · intro h
        obtain ⟨w, hw, hr⟩ := h
        rw [restsAll, ih] at hr
        obtain ⟨u, hu, hr⟩ := hr
        exact ⟨u, List.mem_eraseDups.2 (List.mem_flatMap.2 ⟨w, hw, by simpa using hu⟩), hr⟩

/-- A sequence takes what its first piece takes, and then what the others take. -/
theorem mem_restsAll_cons {p : Piece} {ps : List Piece} {w r : List UInt8} :
    r ∈ restsAll (p :: ps) [w] ↔ ∃ u ∈ p.rests w, r ∈ restsAll ps [u] := by
  rw [restsAll, mem_restsAll]
  simp

/-- What is left behind a front that is taken. -/
theorem mem_dropFront? {front w r : List UInt8} : r ∈ dropFront? front w ↔ w = front ++ r := by
  rw [dropFront?]
  split
  · rename_i h
    obtain ⟨s, rfl⟩ := List.isPrefixOf_iff_prefix.1 h
    rw [List.drop_left, List.mem_singleton, List.append_cancel_left_eq]
    exact eq_comm
  · rename_i h
    refine ⟨fun hr => absurd hr List.not_mem_nil, fun hw => ?_⟩
    exact absurd (List.isPrefixOf_iff_prefix.2 ⟨r, hw.symm⟩) h

/-- Plain characters take exactly themselves. -/
theorem nil_mem_restsAll_literals {cs : List Char} {w : List UInt8} :
    [] ∈ restsAll (cs.map .literal) [w] ↔ w = bytesOf cs := by
  induction cs generalizing w with
  | nil => simp [restsAll, eq_comm]
  | cons c cs ih =>
      rw [List.map_cons, mem_restsAll_cons, Text.bytesOf_cons]
      simp only [Piece.rests, mem_dropFront?, ih]
      constructor
      · intro h
        obtain ⟨u, hu, rfl⟩ := h
        exact hu
      · exact fun h => ⟨_, h, rfl⟩

/-- A run may leave any end. -/
theorem mem_suffixes {w r : List UInt8} : r ∈ suffixes w ↔ r <:+ w := by
  induction w with
  | nil => simp [suffixes]
  | cons b w ih => rw [suffixes, List.mem_cons, List.suffix_cons_iff, ih]

/-- A directory wildcard may leave what stands behind any separator. -/
theorem mem_afterSeparators {w r : List UInt8} :
    r ∈ afterSeparators w ↔ ∃ front, w = front ++ separator :: r := by
  induction w with
  | nil => simp [afterSeparators]
  | cons b w ih =>
      have hcons : (∃ front, b :: w = front ++ separator :: r) ↔
          (b = separator ∧ r = w) ∨ ∃ front, w = front ++ separator :: r := by
        constructor
        · intro h
          obtain ⟨front, h⟩ := h
          cases front with
          | nil => exact .inl ⟨(List.cons.inj h).1, (List.cons.inj h).2.symm⟩
          | cons c front => exact .inr ⟨front, (List.cons.inj h).2⟩
        · intro h
          rcases h with ⟨rfl, rfl⟩ | ⟨front, rfl⟩
          · exact ⟨[], rfl⟩
          · exact ⟨b :: front, rfl⟩
      rw [hcons, afterSeparators, ← ih]
      split
      · rename_i hb
        rw [List.mem_cons]
        simp [hb]
      · rename_i hb
        simp [hb]

/-! ### Bytes of names

Globs work on bytes. In UTF-8 no byte of another character is that of the slash, so a name without
slashes has none of its bytes. -/

/-- No character but the slash has the byte of a separator. -/
theorem separator_notMem {cs : List Char} (h : '/' ∉ cs) : separator ∉ bytesOf cs := by
  intro hmem
  obtain ⟨c, hc, hb⟩ := List.mem_flatMap.1 hmem
  have hslash : c = '/' := by
    have hnat : separator.toNat = 47 := rfl
    rcases Text.toNat_of_mem_utf8EncodeChar hb with heq | hle
    · exact Char.toNat_inj.1 heq.symm
    · omega
  exact h (hslash ▸ hc)

variable {dir name b : List UInt8}

/-- A word without separators ends a path if it ends the name of the path. -/
theorem suffix_path_iff (hb : separator ∉ b) :
    b <:+ dir ++ separator :: name ↔ b <:+ name := by
  constructor
  · intro h
    -- an end of the path is an end of the name, or reaches beyond the separator
    rcases List.suffix_or_suffix_of_suffix h (List.suffix_append dir (separator :: name)) with
      h | h
    · rcases List.suffix_cons_iff.1 h with rfl | h
      · exact absurd List.mem_cons_self hb
      · exact h
    · exact absurd (h.subset List.mem_cons_self) hb
  · exact fun h => h.trans ⟨dir ++ [separator], by simp⟩

/-- A word without separators stands behind one of a path, to the end, if it is the name. -/
theorem name_path_iff (hname : separator ∉ name) (hb : separator ∉ b) :
    (b = dir ++ separator :: name ∨
      ∃ front, dir ++ separator :: name = front ++ separator :: b) ↔ b = name := by
  constructor
  · intro h
    rcases h with rfl | ⟨front, h⟩
    · exact absurd (List.mem_append_right dir List.mem_cons_self) hb
    · exact (eq_of_append_cons hname hb h).symm
  · intro h
    exact .inr ⟨dir, by rw [h]⟩

/-- Whether a path ends in the directory above is a matter of its last name. -/
theorem endsInParent_path (hname : separator ∉ name) :
    endsInParent (dir ++ separator :: name) = endsInParent name := by
  have hall : ∀ x ∈ name.reverse, decide (x ≠ separator) = true := fun x hx =>
    decide_eq_true fun heq => hname (heq ▸ List.mem_reverse.1 hx)
  have htake : name.reverse.takeWhile (· ≠ separator) = name.reverse :=
    List.takeWhile_eq_self_iff.2 hall
  rw [endsInParent, endsInParent, List.reverse_append, List.reverse_cons, List.append_assoc,
    List.takeWhile_append_of_pos hall, htake]
  simp

/-! ### Globs that read the name

Behind the pieces in front, the plain characters have to be the end of the path. They have no
separator, so that end lies within the name. -/

/-- A glob to which it makes no difference what stands in front of the last separator. -/
def ReadsName (g : Glob) : Prop :=
  ∀ dir name : String, '/' ∉ name.toList → g.accepts (dir ++ "/" ++ name) = g.accepts name

/-- Plain characters behind any directories or anything. -/
theorem nil_mem_restsAll_leadingDirs {cs : List Char} {w : List UInt8} :
    [] ∈ restsAll (.leadingDirs :: cs.map .literal) [w] ↔
      bytesOf cs = w ∨ ∃ front, w = front ++ separator :: bytesOf cs := by
  rw [mem_restsAll_cons]
  simp only [Piece.rests, nil_mem_restsAll_literals, exists_eq_right, List.mem_cons,
    mem_afterSeparators]

/-- Behind anything the characters end the word; -/
theorem nil_mem_restsAll_anyRun {cs : List Char} {w : List UInt8} :
    [] ∈ restsAll (.anyRun :: cs.map .literal) [w] ↔ bytesOf cs <:+ w := by
  rw [mem_restsAll_cons]
  simp only [Piece.rests, nil_mem_restsAll_literals, exists_eq_right, mem_suffixes]

/-- behind both it is the same. -/
theorem nil_mem_restsAll_leadingDirs_anyRun {cs : List Char} {w : List UInt8} :
    [] ∈ restsAll (.leadingDirs :: .anyRun :: cs.map .literal) [w] ↔ bytesOf cs <:+ w := by
  rw [mem_restsAll_cons]
  simp only [Piece.rests, nil_mem_restsAll_anyRun, List.mem_cons, mem_afterSeparators]
  constructor
  · intro h
    obtain ⟨u, rfl | ⟨front, rfl⟩, hu⟩ := h
    · exact hu
    · exact hu.trans ⟨front ++ [separator], by simp⟩
  · exact fun h => ⟨w, .inl rfl, h⟩

/-- A glob of plain characters of a name behind any directories, anything, or both. -/
structure EndsPlain (g : Glob) (front : List Piece) (cs : List Char) : Prop where
  pieces : g.pieces = front ++ cs.map .literal
  front : front = [.leadingDirs] ∨ front = [.anyRun] ∨ front = [.leadingDirs, .anyRun]
  name : '/' ∉ cs

/-- Such a glob reads the name only. -/
theorem EndsPlain.readsName {g : Glob} {front : List Piece} {cs : List Char}
    (h : g.EndsPlain front cs) : g.ReadsName := by
  intro dir name hslash
  have hname := separator_notMem hslash
  have hcs := separator_notMem h.name
  have hpath : (dir ++ "/" ++ name).toUTF8.toList =
      bytesOf dir.toList ++ separator :: bytesOf name.toList := by
    rw [← String.ofList_toList (s := dir ++ "/" ++ name), Text.toList_toUTF8]
    simp
    rfl
  have hbytes : name.toUTF8.toList = bytesOf name.toList := by
    rw [← Text.toList_toUTF8, String.ofList_toList]
  have hrests : [] ∈ restsAll g.pieces [bytesOf dir.toList ++ separator :: bytesOf name.toList] ↔
      [] ∈ restsAll g.pieces [bytesOf name.toList] := by
    rw [h.pieces]
    -- three fronts: behind directories alone the whole name is taken, else its end
    rcases h.front with rfl | rfl | rfl
    · have hnone : ¬ ∃ front, bytesOf name.toList = front ++ separator :: bytesOf cs := by
        intro h
        obtain ⟨front, h⟩ := h
        exact hname (h ▸ List.mem_append_right front List.mem_cons_self)
      refine nil_mem_restsAll_leadingDirs.trans ((name_path_iff hname hcs).trans ?_)
      exact (nil_mem_restsAll_leadingDirs.trans (or_iff_left hnone)).symm
    · exact nil_mem_restsAll_anyRun.trans
        ((suffix_path_iff hcs).trans nil_mem_restsAll_anyRun.symm)
    · exact nil_mem_restsAll_leadingDirs_anyRun.trans
        ((suffix_path_iff hcs).trans nil_mem_restsAll_leadingDirs_anyRun.symm)
  unfold accepts
  rw [hpath, hbytes]
  dsimp only
  split
  · rfl
  · rw [endsInParent_path hname]
    congr 1
    rw [Bool.eq_iff_iff, List.contains_iff_mem, List.contains_iff_mem]
    exact hrests

end Outline.Glob
