import Mathlib.Data.Set.Function
import Outline.Proofs.FileSystem.Directory
import Outline.Proofs.Loader.Storage

/-!
# Outline.Proofs.Loader.Directory

**A store in a directory of its own is a map.** As long as nobody else touches the directory, it has
a file for each key of a table, with the bytes of the key, and nothing else (`Store.Filed`). Every
call on the store keeps this up with the table that the same call leaves in memory, and answers the
same (`StoreCall.run_filed`); so calls one after another do not show where the bytes are kept
(`disk_store_is_map`). Keys are told apart by their fingerprints, so this is about keys that have
different ones.

Two runs are compared step by step: the same calls on a directory and on a table in memory. `Filed`
is the relation between the two that every step keeps. It says nothing about files elsewhere, since
a call does not look there.
-/

namespace Outline

variable {keys : Set String} {dir : Path} {d : Location} {fs fs' : FileSystem}
  {entries : Table String (List UInt8)} {key : String} {bytes : List UInt8}

/-! ### Calls

These are the calls that the code makes on a store, as data, so that a run is a list of them. To
store takes one name more, that of the temporary file; in memory it is not used. -/

/-- A call on a store. A store in a directory writes bytes to a file of a temporary name first. -/
inductive StoreCall
  | load (key : String)
  | store (key : String) (bytes : List UInt8) (temporary : String)
  | remove (key : String)
  | clear

/-- What a call says that does not fail. -/
inductive StoreAnswer
  | found (bytes : Option (List UInt8))
  | done
  | cleared (count : Nat)
  deriving DecidableEq

/-- Empty a store, and say how many keys it had. -/
def Store.empty (s : Store) (fs : FileSystem) : Except IoFault Nat × Store × FileSystem :=
  match s with
  | .null => (.ok 0, .null, fs)
  | .memory entries failing => (.ok entries.size, .memory .empty failing, fs)
  | .disk dir =>
    let (count, fs) := Store.clear fs dir
    (count, .disk dir, fs)

namespace StoreCall

/-- What a call says, and what it leaves. -/
def run (c : StoreCall) (s : Store) (fs : FileSystem) :
    Except IoFault StoreAnswer × Store × FileSystem :=
  match c with
  | load key => ((s.get fs key).map .found, s, fs)
  | store key bytes temporary =>
    match s.putThrough temporary fs key bytes with
    | .ok (s, fs) => (.ok .done, s, fs)
    | .error e => (.error e, s, fs)
  | remove key =>
    match s.remove fs key with
    | .ok (s, fs) => (.ok .done, s, fs)
    | .error e => (.error e, s, fs)
  | clear =>
    let (count, s, fs) := s.empty fs
    (count.map .cleared, s, fs)

/-- What calls one after another say, and what they leave. -/
def runAll : List StoreCall → Store → FileSystem →
    List (Except IoFault StoreAnswer) × Store × FileSystem
  | [], s, fs => ([], s, fs)
  | c :: cs, s, fs =>
    let (answer, s, fs) := c.run s fs
    let (answers, s, fs) := runAll cs s fs
    (answer :: answers, s, fs)

/-- The key that a call is about. -/
def key? : StoreCall → Option String
  | load key | store key _ _ | remove key => some key
  | clear => none

end StoreCall

namespace Store

/-- A name for a temporary file: one with the extension `tmp`. -/
structure IsTemporary (n : String) : Prop where
  isName : IsName n
  extension : Path.extensionOf? n = some "tmp"

/-- Files of keys have another extension, so no temporary file is one of them. -/
theorem IsTemporary.ne_fileName {n : String} (h : IsTemporary n) (key : String) :
    n ≠ fileName key := by
  rintro rfl
  have hextension := h.extension
  rw [extensionOf?_fileName] at hextension
  exact absurd hextension (by decide)

/-- With a temporary name that is free, a file comes to its place as if at once. -/
theorem putThrough_eq {temporary : String} (h : fs.Opens dir d) (hname : IsTemporary temporary)
    (hfree : fs.entry? (d ++ [temporary]) = none) (key : String) (bytes : List UInt8) :
    (Store.disk dir).putThrough temporary fs key bytes = (Store.disk dir).put fs key bytes := by
  have hne : fileName key ≠ temporary := (hname.ne_fileName key).symm
  rw [putThrough, put, fileOf,
    h.replaceThrough_join hname.isName (isName_fileName key) hne hfree]

/-! ### Tables in directories

`files` says where the bytes of a key are, and `only` that nothing else is there. The second is
needed for clearing, which lists the directory, and for temporary names, which have to be free. -/

/-- A directory has the files of a table, and nothing else. The keys are some of `keys`. -/
structure Filed (keys : Set String) (dir : Path) (d : Location) (fs : FileSystem)
    (entries : Table String (List UInt8)) : Prop where
  opens : fs.Opens dir d
  within : ∀ key, (entries.get? key).isSome → key ∈ keys
  files : ∀ key ∈ keys, fs.entry? (d ++ [fileName key]) = (entries.get? key).map .file
  only : ∀ n, (fs.entry? (d ++ [n])).isSome → ∃ key, (entries.get? key).isSome ∧ n = fileName key

/-- In an empty directory there are the files of the empty table. -/
theorem filed_empty (h : fs.Opens dir d) (hnone : ∀ n, fs.entry? (d ++ [n]) = none) :
    Filed keys dir d fs .empty where
  opens := h
  within key hkey := by cases hkey
  files key _ := hnone _
  only n hn := by
    rw [hnone n] at hn
    cases hn

namespace Filed

variable (h : Filed keys dir d fs entries)
include h

theorem entry?_of_isTemporary {n : String} (hn : IsTemporary n) : fs.entry? (d ++ [n]) = none := by
  rw [← Option.not_isSome_iff_eq_none]
  intro hsome
  obtain ⟨key, -, heq⟩ := h.only n hsome
  exact hn.ne_fileName key heq

/-- Where a file of the table may be there is no directory and no link. -/
theorem exists_file {n : String} {e : FileSystem.Entry} (he : fs.entry? (d ++ [n]) = some e) :
    ∃ key bytes, entries.get? key = some bytes ∧ n = fileName key ∧ e = .file bytes := by
  obtain ⟨key, hkey, rfl⟩ := h.only n (by rw [he]; rfl)
  obtain ⟨bytes, hbytes⟩ := Option.isSome_iff_exists.1 hkey
  rw [h.files key (h.within key hkey), hbytes] at he
  exact ⟨key, bytes, hbytes, rfl, (Option.some.inj he).symm⟩

theorem exists_content {n : String} {e : FileSystem.Entry}
    (he : fs.entry? (d ++ [n]) = some e) : ∃ c, e = .file c := by
  obtain ⟨_, bytes, -, -, he⟩ := h.exists_file he
  exact ⟨bytes, he⟩

theorem isDirAt_eq_false (n : String) : fs.isDirAt (d ++ [n]) = false := by
  rw [Bool.eq_false_iff]
  intro hdir
  obtain ⟨_, _, -, -, he⟩ := h.exists_file (FileSystem.isDirAt_iff.1 hdir)
  cases he

/-! ### What calls find and change -/

theorem get_eq (hkey : key ∈ keys) : (Store.disk dir).get fs key = .ok (entries.get? key) := by
  have hname := isName_fileName key
  have hfile := h.files key hkey
  unfold get
  dsimp only
  cases hbytes : entries.get? key with
  | none =>
      rw [hbytes] at hfile
      rw [fileOf, h.opens.read_join_of_none hname hfile]
  | some bytes =>
      rw [hbytes] at hfile
      rw [fileOf, h.opens.read_join hname hfile]

end Filed

/-! ### What calls change -/

section

variable (h : Filed keys dir d fs entries) (hinj : keys.InjOn fileName) (hkey : key ∈ keys)
include h hinj hkey

/-- When the file of a key comes or goes, so does the entry of the table. -/
theorem Filed.of_changes {entries' : Table String (List UInt8)}
    (hc : fs.Changes fs' (d ++ [fileName key]))
    (hothers : ∀ k, k ≠ key → entries'.get? k = entries.get? k)
    (hfile : fs'.entry? (d ++ [fileName key]) = (entries'.get? key).map .file) :
    Filed keys dir d fs' entries' := by
  refine ⟨h.opens.changes hc, fun k hk => ?_, fun k hk => ?_, fun n hn => ?_⟩
  · by_cases heq : k = key
    · exact heq ▸ hkey
    · exact h.within k (hothers k heq ▸ hk)
  · by_cases heq : k = key
    · rw [heq]
      exact hfile
    · have hplace : d ++ [fileName k] ≠ d ++ [fileName key] := fun hplace =>
        heq (hinj hk hkey (FileSystem.eq_of_append_singleton hplace))
      rw [hc.others _ hplace, hothers k heq]
      exact h.files k hk
  · by_cases hplace : d ++ [n] = d ++ [fileName key]
    · rw [hplace, hfile, Option.isSome_map] at hn
      exact ⟨key, hn, FileSystem.eq_of_append_singleton hplace⟩
    · rw [hc.others _ hplace] at hn
      obtain ⟨k, hk, rfl⟩ := h.only n hn
      have hne : k ≠ key := fun heq => hplace (heq ▸ rfl)
      exact ⟨k, (hothers k hne).symm ▸ hk, rfl⟩

/-- To put bytes into the directory succeeds, and is as putting them into the table. -/
theorem Filed.put (bytes : List UInt8) : ∃ fs', (Store.disk dir).put fs key bytes =
    .ok (.disk dir, fs') ∧ Filed keys dir d fs' (entries.insert key bytes) := by
  have hnil := FileSystem.append_singleton_ne_nil d (fileName key)
  have hc := FileSystem.changes_set hnil (fun _ he => h.exists_content he) bytes
  refine ⟨fs.set (d ++ [fileName key]) (.file bytes), ?_, h.of_changes hinj hkey hc ?_ ?_⟩
  · rw [Store.put, fileOf, h.opens.replace_join (isName_fileName key), h.isDirAt_eq_false]
    rfl
  · intro k hk
    rw [Table.get?_insert, if_neg hk]
  · rw [FileSystem.entry?_set fs hnil, if_pos rfl, Table.get?_insert, if_pos rfl]
    rfl

/-- The file of a key can be taken away, and its entry goes with it. -/
theorem Filed.remove_file (hbytes : (entries.get? key).isSome) :
    ∃ fs', fs.remove (fileOf dir key) = .ok fs' ∧ fs.Changes fs' (d ++ [fileName key]) ∧
      fs'.entry? (d ++ [fileName key]) = none ∧ Filed keys dir d fs' (entries.erase key) := by
  obtain ⟨bytes, hbytes⟩ := Option.isSome_iff_exists.1 hbytes
  have hfile := h.files key hkey
  rw [hbytes] at hfile
  have hnil := FileSystem.append_singleton_ne_nil d (fileName key)
  have hc := FileSystem.changes_erase hnil fun _ he => h.exists_content he
  have hgone := FileSystem.entry?_erase fs hnil (d ++ [fileName key])
  rw [if_pos rfl] at hgone
  have haround := h.opens.around_join (isName_fileName key)
  refine ⟨_, (endsIn_fileOf dir key).remove_of_file haround hfile, hc, hgone,
    h.of_changes hinj hkey hc (fun k hk => ?_) ?_⟩
  · rw [Table.get?_erase, if_neg hk]
  · rw [hgone, Table.get?_erase, if_pos rfl]
    rfl

/-- To remove a key from the directory succeeds, and is as removing it from the table. -/
theorem Filed.remove : ∃ fs', (Store.disk dir).remove fs key = .ok (.disk dir, fs') ∧
    Filed keys dir d fs' (entries.erase key) := by
  unfold Store.remove
  dsimp only
  by_cases hbytes : (entries.get? key).isSome
  · obtain ⟨fs', hremove, -, -, hfiled⟩ := h.remove_file hinj hkey hbytes
    rw [hremove]
    exact ⟨fs', rfl, hfiled⟩
  · have hnone := Option.not_isSome_iff_eq_none.1 hbytes
    have hfile := h.files key hkey
    rw [hnone] at hfile
    rw [(endsIn_fileOf dir key).remove_of_none (h.opens.around_join (isName_fileName key)) hfile,
      Table.erase_of_get?_eq_none hnone]
    exact ⟨fs, rfl, h⟩

end

/-! ### Clearing a directory

Clearing lists the files of the store and removes one after another, each from a directory that has
one less than before. The table loses its keys in the order in which the files are listed. -/

section

variable (h : Filed keys dir d fs entries) (hinj : keys.InjOn fileName)
include h hinj

/-- There is just one file for each key. -/
theorem Filed.namesAt_perm : (fs.namesAt d).Perm ((entries.entries.map (·.1)).map fileName) := by
  have hthere : ∀ {k}, k ∈ entries.entries.map (·.1) → k ∈ keys := fun hk =>
    h.within _ (Table.isSome_get?_iff.2 hk)
  have hnodup : ((entries.entries.map (·.1)).map fileName).Nodup :=
    entries.nodup_keys.map_on fun k hk k' hk' heq => hinj (hthere hk) (hthere hk') heq
  refine (List.perm_ext_iff_of_nodup (fs.nodup_namesAt d) hnodup).2 fun n => ?_
  rw [FileSystem.mem_namesAt, List.mem_map]
  constructor
  · intro hn
    obtain ⟨k, hk, rfl⟩ := h.only n hn
    exact ⟨k, Table.isSome_get?_iff.1 hk, rfl⟩
  · rintro ⟨k, hk, rfl⟩
    rw [h.files k (hthere hk), Option.isSome_map]
    exact Table.isSome_get?_iff.2 hk

/-- When all files have been removed one after another, the table is empty. -/
theorem Filed.removeAll {ns : List String} (hns : ns.Nodup)
    (hmem : ∀ n, n ∈ ns ↔ (fs.entry? (d ++ [n])).isSome) :
    ∃ fs', Store.removeAll fs (ns.map fun n => dir.join ⟨n⟩) = (.ok ns.length, fs') ∧
      Filed keys dir d fs' .empty := by
  induction ns generalizing fs entries with
  | nil =>
      refine ⟨fs, rfl, filed_empty h.opens fun n => Option.not_isSome_iff_eq_none.1 fun hn => ?_⟩
      exact List.not_mem_nil ((hmem n).2 hn)
  | cons n ns ih =>
      obtain ⟨hn, hrest⟩ := List.nodup_cons.1 hns
      obtain ⟨key, hkey, rfl⟩ := h.only n ((hmem n).1 List.mem_cons_self)
      obtain ⟨rest, hremove, hc, hgone, hfiled⟩ :=
        h.remove_file hinj (h.within key hkey) hkey
      -- the files that are left are those of the names that are left
      have hleft : ∀ m, m ∈ ns ↔ (rest.entry? (d ++ [m])).isSome := by
        intro m
        by_cases heq : m = fileName key
        · rw [heq, hgone]
          exact ⟨fun hm => absurd hm hn, nofun⟩
        · have hplace : d ++ [m] ≠ d ++ [fileName key] := fun hplace =>
            heq (FileSystem.eq_of_append_singleton hplace)
          rw [hc.others _ hplace, ← hmem m, List.mem_cons]
          exact ⟨.inr, fun hm => hm.resolve_left heq⟩
      obtain ⟨fs', hall, hempty⟩ := ih hfiled hrest hleft
      refine ⟨fs', ?_, hempty⟩
      rw [List.map_cons, Store.removeAll, show fs.remove (dir.join ⟨fileName key⟩) = _ from hremove]
      dsimp only
      rw [hall]
      rfl

/-- To clear the directory removes and counts the keys of the table. -/
theorem Filed.clear : ∃ fs', Store.clear fs dir = (.ok entries.size, fs') ∧
    Filed keys dir d fs' .empty := by
  -- every file in the directory has the extension of a store's, so none is passed over
  have hstubs : ∀ p ∈ (fs.namesAt d).map fun n => dir.join ⟨n⟩,
      (p.extension? == some fileExtension) = true := by
    intro p hp
    obtain ⟨n, hn, rfl⟩ := List.mem_map.1 hp
    obtain ⟨key, -, rfl⟩ := h.only n (FileSystem.mem_namesAt.1 hn)
    rw [Path.extension?, (FileSystem.endsIn_join dir (isName_fileName key)).fileName?_eq,
      Option.bind_some, extensionOf?_fileName]
    exact beq_self_eq_true _
  have hfiles : filesOf fs dir = .ok ((fs.namesAt d).map fun n => dir.join ⟨n⟩) := by
    rw [filesOf, h.opens.list?_eq]
    exact congrArg Except.ok (List.filter_eq_self.2 hstubs)
  have hlength : (fs.namesAt d).length = entries.size := by
    rw [(h.namesAt_perm hinj).length_eq, List.length_map, List.length_map]
    rfl
  obtain ⟨fs', hall, hempty⟩ :=
    h.removeAll hinj (fs.nodup_namesAt d) fun n => FileSystem.mem_namesAt
  refine ⟨fs', ?_, hempty⟩
  rw [Store.clear, hfiles]
  dsimp only
  rw [hall, hlength]

end

end Store

/-! ### Runs of calls

One call keeps `Filed` and says the same in both; the run is an induction over the calls, with the
table as it is after each of them. -/

/-- The key of a call is one of `keys`, and temporary files have names of their kind. -/
def StoreCall.Fits (keys : Set String) : StoreCall → Prop
  | load key | remove key => key ∈ keys
  | store key _ temporary => key ∈ keys ∧ Store.IsTemporary temporary
  | clear => True

/-- A call on a directory says what it says in memory, and leaves the files of the table that it
leaves in memory. There it changes no key but its own. -/
theorem StoreCall.run_filed {c : StoreCall} (hc : c.Fits keys)
    (h : Store.Filed keys dir d fs entries) (hinj : keys.InjOn Store.fileName)
    (files : FileSystem) :
    ∃ answer fs' entries', c.run (.disk dir) fs = (.ok answer, .disk dir, fs') ∧
      c.run (.memory entries []) files = (.ok answer, .memory entries' [], files) ∧
      Store.Filed keys dir d fs' entries' ∧
      ∀ key, c.key? = some key → ∀ k, k ≠ key → entries'.get? k = entries.get? k := by
  cases c with
  | load key =>
      refine ⟨.found (entries.get? key), fs, entries, ?_, rfl, h, fun _ _ _ _ => rfl⟩
      rw [run, h.get_eq hc]
      rfl
  -- the temporary name is free, so the file comes to its place as if at once
  | store key bytes temporary =>
      obtain ⟨hkey, htemporary⟩ := hc
      obtain ⟨fs', hput, hfiled⟩ := h.put hinj hkey bytes
      refine ⟨.done, fs', entries.insert key bytes, ?_, rfl, hfiled, fun k hk k' hne => ?_⟩
      · rw [run, Store.putThrough_eq h.opens htemporary (h.entry?_of_isTemporary htemporary), hput]
      · obtain rfl := Option.some.inj hk
        rw [Table.get?_insert, if_neg hne]
  | remove key =>
      obtain ⟨fs', hremove, hfiled⟩ := h.remove hinj hc
      refine ⟨.done, fs', entries.erase key, ?_, rfl, hfiled, fun k hk k' hne => ?_⟩
      · rw [run, hremove]
      · obtain rfl := Option.some.inj hk
        rw [Table.get?_erase, if_neg hne]
  | clear =>
      obtain ⟨fs', hclear, hfiled⟩ := h.clear hinj
      refine ⟨.cleared entries.size, fs', .empty, ?_, rfl, hfiled, nofun⟩
      rw [run, Store.empty, hclear]
      rfl

/-- So it is with calls one after another. -/
theorem StoreCall.runAll_filed {cs : List StoreCall} (hcs : ∀ c ∈ cs, c.Fits keys)
    (h : Store.Filed keys dir d fs entries) (hinj : keys.InjOn Store.fileName)
    (files : FileSystem) :
    ∃ answers : List StoreAnswer, ∃ fs' entries',
      runAll cs (.disk dir) fs = (answers.map .ok, .disk dir, fs') ∧
      runAll cs (.memory entries []) files = (answers.map .ok, .memory entries' [], files) ∧
      Store.Filed keys dir d fs' entries' := by
  induction cs generalizing fs entries with
  | nil => exact ⟨[], fs, entries, rfl, rfl, h⟩
  | cons c cs ih =>
      obtain ⟨hc, hcs⟩ := List.forall_mem_cons.1 hcs
      obtain ⟨answer, fs₁, entries₁, hdisk, hmemory, h₁, -⟩ := run_filed hc h hinj files
      obtain ⟨answers, fs₂, entries₂, hdisk₂, hmemory₂, h₂⟩ := ih hcs h₁
      refine ⟨answer :: answers, fs₂, entries₂, ?_, ?_, h₂⟩
      · rw [runAll, hdisk]
        dsimp only
        rw [hdisk₂]
        rfl
      · rw [runAll, hmemory]
        dsimp only
        rw [hmemory₂]
        rfl

/-- A directory is a table to whoever uses it through its store. -/
structure Store.IsTable (keys : Set String) (dir : Path) (fs : FileSystem)
    (entries : Table String (List UInt8)) : Prop where
  /-- There is one file for each key, and no other, not even a temporary one. -/
  listed : ∃ names, fs.list? dir = .ok names ∧
    names.Perm ((entries.entries.map (·.1)).map Store.fileName) ∧
    ∀ n ∈ names, Path.extensionOf? n = some Store.fileExtension
  /-- Each key has the bytes that it has in the table. -/
  found : ∀ key ∈ keys, (Store.disk dir).get fs key = .ok (entries.get? key)
  /-- What is cleared is all that there is. -/
  cleared : (Store.clear fs dir).1 = .ok entries.size
  /-- A call about one key does not change what another key has. -/
  apart : ∀ (c : StoreCall) (key key' : String), c.Fits keys → c.key? = some key → key' ∈ keys →
    key' ≠ key →
    let after := c.run (.disk dir) fs
    after.2.1.get after.2.2 key' = (Store.disk dir).get fs key'

theorem Store.Filed.isTable (h : Filed keys dir d fs entries) (hinj : keys.InjOn fileName) :
    IsTable keys dir fs entries where
  listed := by
    refine ⟨fs.namesAt d, h.opens.list?_eq, h.namesAt_perm hinj, fun n hn => ?_⟩
    obtain ⟨key, -, rfl⟩ := h.only n (FileSystem.mem_namesAt.1 hn)
    exact extensionOf?_fileName key
  found key hkey := h.get_eq hkey
  cleared := by
    obtain ⟨fs', hclear, -⟩ := h.clear hinj
    rw [hclear]
  apart c key key' hc hkey hkey' hne := by
    obtain ⟨answer, fs', entries', hdisk, -, h', hothers⟩ := StoreCall.run_filed hc h hinj fs
    rw [hdisk]
    dsimp only
    rw [h'.get_eq hkey', h.get_eq hkey', hothers key hkey key' hne]

/-- **A store in a directory is a map.** In a directory that is empty at first and that nobody else
touches, calls one after another, about keys with different fingerprints, all succeed and answer as
in memory. What they leave is a table to whoever goes on with it: there is one file for each key
that memory has and no temporary file, each key has its bytes, clearing counts the keys, and a call
about one key does not change what another one has. -/
theorem disk_store_is_map (hempty : fs.list? dir = .ok [])
    (hkeys : keys.InjOn fun key => Fingerprint.ofContent key.toUTF8.toList)
    {cs : List StoreCall} (hcs : ∀ c ∈ cs, c.Fits keys) :
    let disk := StoreCall.runAll cs (.disk dir) fs
    let memory := StoreCall.runAll cs .inMemory fs
    disk.1 = memory.1 ∧ (∀ answer ∈ disk.1, ∃ a, answer = .ok a) ∧ disk.2.1 = .disk dir ∧
      ∃ entries, memory.2.1 = .memory entries [] ∧ Store.IsTable keys dir disk.2.2 entries := by
  obtain ⟨d, hopens, hnames⟩ := FileSystem.exists_opens_of_list? hempty
  have hnone : ∀ n, fs.entry? (d ++ [n]) = none := by
    intro n
    rw [← Option.not_isSome_iff_eq_none, ← FileSystem.mem_namesAt, ← hnames]
    exact List.not_mem_nil
  -- keys with different fingerprints have files of different names
  have hinj : keys.InjOn Store.fileName := fun _ hk _ hk' heq =>
    hkeys hk hk' (Store.fileName_inj heq)
  obtain ⟨answers, fs', entries, hdisk, hmemory, hfiled⟩ :=
    StoreCall.runAll_filed hcs (Store.filed_empty hopens hnone) hinj fs
  have hmemory' : StoreCall.runAll cs .inMemory fs = _ := hmemory
  intro disk memory
  rw [show disk = _ from hdisk, show memory = _ from hmemory']
  refine ⟨rfl, fun answer hanswer => ?_, rfl, entries, rfl, hfiled.isTable hinj⟩
  obtain ⟨a, -, rfl⟩ := List.mem_map.1 hanswer
  exact ⟨a, rfl⟩

/-- Two keys are stored, one of them twice, and the other is removed twice; then all is cleared. -/
theorem disk_store_is_map_cleared :
    let fs : FileSystem := ({} : FileSystem).set ["s"] .directory
    let dir := FileSystem.pathOf ["s"]
    let keys : Set String := {k | k ∈ ["/a.rs", "/b.rs"]}
    let cs : List StoreCall :=
      [.store "/a.rs" [1] ".tmp000001.tmp", .store "/b.rs" [2] ".tmp000002.tmp",
        .store "/a.rs" [3] ".tmp000003.tmp", .remove "/b.rs", .remove "/b.rs", .load "/a.rs",
        .load "/b.rs", .clear, .load "/a.rs"]
    fs.list? dir = .ok [] ∧ (∀ c ∈ cs, c.Fits keys) ∧
      (keys.InjOn fun key => Fingerprint.ofContent key.toUTF8.toList) ∧
      (StoreCall.runAll cs (.disk dir) fs).1 =
        [.ok .done, .ok .done, .ok .done, .ok .done, .ok .done, .ok (.found (some [3])),
          .ok (.found none), .ok (.cleared 1), .ok (.found none)] ∧
      ((StoreCall.runAll cs (.disk dir) fs).2.2.list? dir) = .ok [] := by
  intro fs dir keys cs
  have hname : ∀ n ∈ ["s", ".tmp000001.tmp", ".tmp000002.tmp", ".tmp000003.tmp"], IsName n :=
    fun n hn =>
      ⟨by decide +revert, by decide +revert, by decide +revert, by decide +revert⟩
  have hplain : fs.Plain :=
    FileSystem.plain_empty.set (d := []) (n := "s") rfl (hname _ (by decide)) (.inl rfl)
  have hopens : fs.Opens dir ["s"] := ⟨hplain.locate_pathOf rfl, by decide⟩
  have hnone : fs.namesAt ["s"] = [] := (fs.namesAt_perm ["s"]).eq_nil
  have hempty : fs.list? dir = .ok [] := by rw [hopens.list?_eq, hnone]
  -- the only fact about fingerprints: these two keys differ in theirs
  have hkeys : ∀ k ∈ ["/a.rs", "/b.rs"], ∀ k' ∈ ["/a.rs", "/b.rs"],
      Fingerprint.ofContent k.toUTF8.toList = Fingerprint.ofContent k'.toUTF8.toList → k = k' := by
    decide +kernel
  have hinj : keys.InjOn fun key => Fingerprint.ofContent key.toUTF8.toList :=
    fun k hk k' hk' heq => hkeys k hk k' hk' heq
  have ha : "/a.rs" ∈ keys := List.mem_cons_self
  have hb : "/b.rs" ∈ keys := List.mem_cons_of_mem _ List.mem_cons_self
  have hfits : ∀ c ∈ cs, c.Fits keys := by
    simp only [cs, List.forall_mem_cons]
    exact ⟨⟨ha, hname _ (by decide), by decide⟩, ⟨hb, hname _ (by decide), by decide⟩,
      ⟨ha, hname _ (by decide), by decide⟩, hb, hb, ha, hb, trivial, ha, List.forall_mem_nil _⟩
  obtain ⟨hanswers, -, -, entries, hentries, htable⟩ := disk_store_is_map hempty hinj hfits
  refine ⟨hempty, hfits, hinj, hanswers.trans rfl, ?_⟩
  obtain rfl : .empty = entries := (Store.memory.inj hentries).1
  obtain ⟨names, hlist, hperm, -⟩ := htable.listed
  rw [hlist, hperm.eq_nil]

end Outline
