import Mathlib.Data.List.Induction
import TypeStubs.Proofs.WrittenFiles

/-! Where paths lead in a tree of files, and what making directories and writing files leaves of
that. Something in a directory that is there is never refused because something is missing. -/

namespace TypeStubs

open List

variable {name text : String}

namespace FileTree

def behind (place : Place) (name : String) : Place :=
  if name = ".." then enclosing place else place ++ [name]

theorem behind_name (place : Place) (h : name ≠ "..") :
    behind place name = place ++ [name] := if_neg h

theorem foldl_behind {names : List String} (place : Place) (h : ".." ∉ names) :
    names.foldl behind place = place ++ names := by
  induction names generalizing place with
  | nil => exact (append_nil place).symm
  | cons name names ih =>
    have down : name ≠ ".." := fun up => h (up ▸ mem_cons_self)
    rw [foldl_cons, behind_name place down, ih _ fun hm => h (.tail _ hm), append_assoc]
    rfl

end FileTree

namespace Path

def place (path : Path) : Place := path.parts.foldl FileTree.behind (FileTree.start path)

def below (path : Path) (names : List String) : Path :=
  { path with parts := path.parts ++ names }

@[simp] theorem below_nil (path : Path) : path.below [] = path := by
  simp only [below, append_nil]

@[simp] theorem below_below (path : Path) (names more : List String) :
    (path.below names).below more = path.below (names ++ more) := by
  simp only [below, append_assoc]

theorem place_below_foldl (path : Path) (names : List String) :
    (path.below names).place = names.foldl FileTree.behind path.place :=
  foldl_append

theorem place_below (path : Path) {names : List String} (h : ".." ∉ names) :
    (path.below names).place = path.place ++ names := by
  rw [place_below_foldl, FileTree.foldl_behind _ h]

end Path

namespace FileTree

variable {t t' : FileTree} {path : Path} {place goal : Place} {names : List String}

theorem walk_append (t : FileTree) (place : Place) (names more : List String) :
    t.walk place (names ++ more) = t.walk place names >>= (t.walk · more) := by
  induction names generalizing place with
  | nil => rfl
  | cons name names ih =>
    rw [cons_append, walk, walk, ih, ih]
    split
    · rfl
    · split
      · rfl
      · split
        · rfl
        · split
          · rfl
          · rfl

theorem walk_cons_ok (h : t.walk place (name :: names) = .ok goal) :
    t.hasFile place = false ∧ t.hasDirectory place = true ∧
      (name ≠ ".." → ¬ nameLimit < name.utf8ByteSize) ∧ t.walk (behind place name) names = .ok goal := by
  rw [walk] at h
  split at h
  · cases h
  · rename_i file
    split at h
    · cases h
    · rename_i directory
      have there : t.hasFile place = false ∧ t.hasDirectory place = true := by simp_all
      split at h
      · rename_i up
        rw [behind, if_pos up]
        exact ⟨there.1, there.2, fun down => absurd up down, h⟩
      · rename_i down
        split at h
        · cases h
        · rename_i short
          rw [behind_name place down]
          exact ⟨there.1, there.2, fun _ => short, h⟩

theorem walk_ok (h : t.walk place names = .ok goal) : goal = names.foldl behind place := by
  induction names generalizing place with
  | nil =>
    cases h
    rfl
  | cons name names ih => exact ih (walk_cons_ok h).2.2.2

theorem locate_ok (h : t.locate path = .ok place) :
    accept path = .ok () ∧ t.walk (start path) path.parts = .ok path.place ∧ place = path.place := by
  unfold locate at h
  cases accepted : accept path with
  | error e =>
    rw [accepted] at h
    cases h
  | ok u =>
    rw [accepted] at h
    have ends : place = path.place := walk_ok h
    rw [← ends]
    exact ⟨rfl, h, rfl⟩

theorem accept_eq (path : Path) : accept path =
    if '\x00' ∈ path.text.toList then .error .nullCharacter
    else if pathLimit < path.text.utf8ByteSize then .error .tooLong else .ok () := by
  unfold accept
  by_cases null : '\x00' ∈ path.text.toList
  · simp [null, throw, throwThe, MonadExceptOf.throw, bind, Except.bind]
  · simp [null, throw, throwThe, MonadExceptOf.throw, pure, Except.pure]

theorem accept_ne_missing (path : Path) : accept path ≠ .error .missing := by
  rw [accept_eq]
  split
  · nofun
  · split
    · nofun
    · nofun

theorem accept_ok_iff (path : Path) : accept path = .ok () ↔
    '\x00' ∉ path.text.toList ∧ path.text.utf8ByteSize ≤ pathLimit := by
  rw [accept_eq]
  by_cases null : '\x00' ∈ path.text.toList
  · simp [null]
  · simp [null]

theorem intercalate_isPrefix {α : Type} (separator : List α) (xs ys : List (List α)) :
    intercalate separator xs <+: intercalate separator (xs ++ ys) := by
  induction xs with
  | nil => exact nil_prefix
  | cons x xs ih =>
    cases xs with
    | nil =>
      cases ys with
      | nil => exact prefix_rfl
      | cons y ys =>
        rw [singleton_append, intercalate_cons_cons, intercalate_singleton, append_assoc]
        exact prefix_append _ _
    | cons x' xs =>
      rw [cons_append, cons_append, intercalate_cons_cons, intercalate_cons_cons, ← cons_append]
      exact (prefix_append_right_inj _).mpr ih

theorem toList_text (h : ¬ (path.root = "" ∧ path.parts = [])) :
    path.text.toList =
      path.root.toList ++ ['/'].intercalate (path.parts.map String.toList) := by
  have full : path.text = path.root ++ joinWith "/" path.parts := if_neg (by simpa using h)
  rw [full, joinWith, String.toList_append, String.toList_intercalate]
  rfl

theorem text_below (path : Path) (names : List String) :
    path.text = "." ∨ ∃ more, (path.below names).text = path.text ++ more := by
  by_cases bare : path.root = "" ∧ path.parts = []
  · left
    simp [Path.text, bare]
  · right
    have below : ¬ ((path.below names).root = "" ∧ (path.below names).parts = []) :=
      fun h => bare ⟨h.1, (append_eq_nil_iff.mp h.2).1⟩
    obtain ⟨more, hmore⟩ := intercalate_isPrefix ['/'] (path.parts.map String.toList)
      (names.map String.toList)
    refine ⟨String.ofList more, String.toList_inj.mp ?_⟩
    rw [String.toList_append, toList_text bare, toList_text below, String.toList_ofList,
      append_assoc, hmore, ← map_append]
    rfl

theorem accept_of_below (h : accept (path.below names) = .ok ()) : accept path = .ok () := by
  rw [accept_ok_iff] at h ⊢
  rcases text_below path names with dot | ⟨more, text⟩
  · rw [dot]
    decide
  · rw [text, String.toList_append, String.utf8ByteSize_append] at h
    exact ⟨fun null => h.1 (mem_append_left _ null), by omega⟩

def Leads (t : FileTree) (path : Path) : Prop :=
  t.locate path = .ok path.place ∧ t.hasDirectory path.place = true

/-- Something in a directory that a path leads to is found, unless its own path is refused, its name
is too long, or a file stands in the place of the directory. -/
theorem Leads.locate_below (leads : t.Leads path) (name : String) :
    t.locate (path.below [name]) = .ok (path.below [name]).place ∨
      ∃ e, t.locate (path.below [name]) = .error e ∧ e ≠ .missing ∧
        (accept (path.below [name]) = .ok () →
          t.hasFile path.place = true ∨ name ≠ ".." ∧ nameLimit < name.utf8ByteSize) := by
  obtain ⟨located, there⟩ := leads
  have walked : t.walk (start (path.below [name])) path.parts = .ok path.place :=
    (locate_ok located).2.1
  have found : t.locate (path.below [name]) =
      accept (path.below [name]) >>= fun _ => t.walk path.place [name] := by
    have parts : (path.below [name]).parts = path.parts ++ [name] := rfl
    rw [locate, parts, walk_append, walked]
    rfl
  rw [found, Path.place_below_foldl]
  cases accepted : accept (path.below [name]) with
  | error e => exact .inr ⟨e, rfl, fun he => accept_ne_missing _ (he ▸ accepted), nofun⟩
  | ok u =>
    change t.walk path.place [name] = _ ∨ ∃ e, t.walk path.place [name] = _ ∧ _
    rw [walk, there]
    by_cases file : t.hasFile path.place = true
    · rw [if_pos file]
      exact .inr ⟨.notDirectory, rfl, nofun, fun _ => .inl file⟩
    · rw [if_neg file, if_neg (by simp)]
      by_cases up : name = ".."
      · rw [if_pos up]
        left
        simp [walk, behind, up]
      · rw [if_neg up]
        by_cases long : nameLimit < name.utf8ByteSize
        · rw [if_pos long]
          exact .inr ⟨.tooLong, rfl, nofun, fun _ => .inr ⟨up, long⟩⟩
        · rw [if_neg long]
          left
          simp [walk, behind, up]

theorem Leads.not_missing (leads : t.Leads path) (name : String) :
    t.locate (path.below [name]) ≠ .error .missing := by
  intro failed
  rcases leads.locate_below name with found | ⟨e, failed', present, -⟩
  · rw [failed] at found
    cases found
  · rw [failed] at failed'
    cases failed'
    exact present rfl

/-- The second tree has all directories of the first, and no new files in their places. -/
structure Extends (t t' : FileTree) : Prop where
  directory {place : Place} : t.hasDirectory place = true → t'.hasDirectory place = true
  free {place : Place} : t.hasDirectory place = true → t.hasFile place = false →
    t'.hasFile place = false

theorem Extends.refl (t : FileTree) : Extends t t := ⟨id, fun _ => id⟩

theorem Extends.trans {t'' : FileTree} (h : Extends t t') (h' : Extends t' t'') : Extends t t'' :=
  ⟨fun there => h'.directory (h.directory there),
    fun there free => h'.free (h.directory there) (h.free there free)⟩

theorem Extends.walk (h : Extends t t') (walked : t.walk place names = .ok goal) :
    t'.walk place names = .ok goal := by
  induction names generalizing place with
  | nil => exact walked
  | cons name names ih =>
    obtain ⟨free, there, short, rest⟩ := walk_cons_ok walked
    rw [FileTree.walk, h.free there free, h.directory there]
    by_cases up : name = ".."
    · rw [behind, if_pos up] at rest
      simpa [up] using ih rest
    · rw [behind_name place up] at rest
      simpa [up, short up] using ih rest

theorem Extends.locate (h : Extends t t') (located : t.locate path = .ok place) :
    t'.locate path = .ok place := by
  obtain ⟨accepted, walked, rfl⟩ := locate_ok located
  rw [FileTree.locate, accepted]
  exact h.walk walked

theorem Leads.mono (leads : t.Leads path) (h : Extends t t') : t'.Leads path :=
  ⟨h.locate leads.1, h.directory leads.2⟩

theorem makeDirectory_ok (made : t.makeDirectory path = .ok t') :
    t.locate path = .ok path.place ∧ t'.files = t.files ∧
      ∀ place, t'.hasDirectory place = true ↔ t.hasDirectory place = true ∨ place = path.place := by
  have files := files_makeDirectory made
  simp only [makeDirectory, bind, Except.bind, pure, Except.pure] at made
  split at made
  · cases made
  · rename_i place located
    obtain ⟨-, -, rfl⟩ := locate_ok located
    refine ⟨located, files, fun place => ?_⟩
    split at made
    · rename_i there
      cases made
      constructor
      · exact .inl
      · rintro (old | rfl)
        · exact old
        · exact there
    · split at made
      · cases made
      · cases made
        simp [hasDirectory, or_assoc]

theorem makeDirectory_error {e : FileError} (failed : t.makeDirectory path = .error e) :
    t.locate path = .error e ∨ e = .alreadyThere ∧ t.hasFile path.place = true := by
  simp only [makeDirectory, bind, Except.bind, pure, Except.pure] at failed
  split at failed
  · rename_i located
    cases failed
    exact .inl located
  · rename_i place located
    obtain ⟨-, -, rfl⟩ := locate_ok located
    split at failed
    · cases failed
    · split at failed
      · rename_i file
        cases failed
        exact .inr ⟨rfl, file⟩
      · cases failed

theorem writeFile_ok (written : t.writeFile path text = .ok t') :
    t.locate path = .ok path.place ∧ t.hasDirectory path.place = false ∧
      t'.directories = t.directories ∧
      t'.files = t.files.filter (·.1 ≠ path.place) ++ [(path.place, text)] := by
  simp only [writeFile, bind, Except.bind, pure, Except.pure] at written
  split at written
  · cases written
  · rename_i place located
    obtain ⟨-, -, rfl⟩ := locate_ok located
    split at written
    · cases written
    · rename_i free
      cases written
      exact ⟨located, Bool.eq_false_iff.mpr free, rfl, rfl⟩

theorem writeFile_error {e : FileError} (failed : t.writeFile path text = .error e) :
    t.locate path = .error e ∨ e = .isDirectory ∧ t.hasDirectory path.place = true := by
  simp only [writeFile, bind, Except.bind, pure, Except.pure] at failed
  split at failed
  · rename_i located
    cases failed
    exact .inl located
  · rename_i place located
    obtain ⟨-, -, rfl⟩ := locate_ok located
    split at failed
    · rename_i there
      cases failed
      exact .inr ⟨rfl, there⟩
    · cases failed

theorem hasFile_congr (h : t'.files = t.files) (place : Place) : t'.hasFile place = t.hasFile place := by
  rw [hasFile, h, hasFile]

theorem extends_makeDirectory (made : t.makeDirectory path = .ok t') : Extends t t' := by
  obtain ⟨-, files, directories⟩ := makeDirectory_ok made
  refine ⟨fun there => (directories _).mpr (.inl there), fun _ free => ?_⟩
  rw [hasFile_congr files, free]

theorem leads_makeDirectory (made : t.makeDirectory path = .ok t') : t'.Leads path := by
  obtain ⟨located, -, directories⟩ := makeDirectory_ok made
  exact ⟨(extends_makeDirectory made).locate located, (directories _).mpr (.inr rfl)⟩

theorem hasFile_writeFile (written : t.writeFile path text = .ok t') (place : Place) :
    t'.hasFile place = true ↔ t.hasFile place = true ∨ place = path.place := by
  obtain ⟨-, -, -, files⟩ := writeFile_ok written
  simp only [hasFile, files, any_eq_true, decide_eq_true_eq, mem_append, mem_filter, mem_singleton]
  constructor
  · rintro ⟨file, ⟨old, -⟩ | rfl, rfl⟩
    · exact .inl ⟨file, old, rfl⟩
    · exact .inr rfl
  · rintro (⟨file, old, rfl⟩ | rfl)
    · by_cases same : file.1 = path.place
      · exact ⟨_, .inr rfl, same.symm⟩
      · exact ⟨file, .inl ⟨old, same⟩, rfl⟩
    · exact ⟨_, .inr rfl, rfl⟩

theorem extends_writeFile (written : t.writeFile path text = .ok t') : Extends t t' := by
  obtain ⟨-, free, directories, -⟩ := writeFile_ok written
  constructor
  · intro place there
    rwa [hasDirectory, directories]
  · intro place there empty
    refine Bool.eq_false_iff.mpr fun file => ?_
    rcases (hasFile_writeFile written place).mp file with old | rfl
    · exact Bool.false_ne_true (empty.symm.trans old)
    · exact Bool.false_ne_true (free.symm.trans there)

end FileTree

namespace Writing

variable {α β : Type} {E : WriteError → Prop} {Q : α → FileTree → Prop} {x : Writing α}
variable {t : FileTree}

/-- A step from a tree either returns with a property of its result and the tree after it, or fails
with a property of the error. -/
def Goes (E : WriteError → Prop) (x : Writing α) (t : FileTree) (Q : α → FileTree → Prop) : Prop :=
  match x.run.run t with
  | (.ok a, t') => Q a t'
  | (.error e, _) => E e

theorem Goes.bind {f : α → Writing β}
    {R : β → FileTree → Prop} (hx : Goes E x t Q) (hf : ∀ a t', Q a t' → Goes E (f a) t' R) :
    Goes E (x >>= f) t R := by
  unfold Goes at hx ⊢
  rw [run_bind]
  generalize x.run.run t = r at hx ⊢
  obtain ⟨e | a, t'⟩ := r
  · exact hx
  · exact hf a t' hx

theorem Goes.imp {R : α → FileTree → Prop} (hx : Goes E x t Q)
    (h : ∀ a t', Q a t' → R a t') : Goes E x t R := by
  unfold Goes at hx ⊢
  generalize x.run.run t = r at hx ⊢
  obtain ⟨e | a, t'⟩ := r
  · exact hx
  · exact h a t' hx

theorem Goes.ok {t t' : FileTree} {a : α}
    (hx : Goes E x t Q) (run : x.run.run t = (.ok a, t')) : Q a t' := by
  unfold Goes at hx
  rwa [run] at hx

theorem Goes.error {t t' : FileTree} {e : WriteError}
    (hx : Goes E x t Q) (run : x.run.run t = (.error e, t')) : E e := by
  unfold Goes at hx
  rwa [run] at hx

theorem goes_pure {a : α} (h : Q a t) :
    Goes E (pure a) t Q := h

theorem goes_throw {e : WriteError} (h : E e) :
    Goes E (throw e) t Q := h

theorem goes_ask {f : FileTree → Except FileError α}
    (ok : ∀ a, f t = .ok a → Q a t) (error : ∀ e, f t = .error e → E (.file e)) :
    Goes E (ask f) t Q := by
  unfold Goes
  rw [run_ask]
  cases h : f t with
  | ok a => exact ok a h
  | error e => exact error e h

theorem goes_change {f : FileTree → Except FileError FileTree}
    {Q : Unit → FileTree → Prop} (ok : ∀ t', f t = .ok t' → Q () t')
    (error : ∀ e, f t = .error e → E (.file e)) : Goes E (change f) t Q := by
  unfold Goes
  rw [run_change]
  cases h : f t with
  | ok t' => exact ok t' h
  | error e => exact error e h

/-- An error that does not come from a missing directory, and does not come at all under a
condition. -/
def Refused (C : Prop) (e : WriteError) : Prop := e ≠ .noDirectory ∧ e ≠ .file .missing ∧ ¬ C

theorem upTo_below (path : Path) (name : String) :
    (path.below [name]).upTo = path.upTo ++ [path.below [name]] := by
  have priors : ∀ n ∈ range (path.parts.length + 1),
      { path.below [name] with parts := (path.below [name]).parts.take n } =
        { path with parts := path.parts.take n } := by
    intro n hn
    have hn : n ≤ path.parts.length := Nat.le_of_lt_succ (mem_range.mp hn)
    simp only [Path.below, take_append_of_le_length hn]
  have length : (path.below [name]).parts.length = path.parts.length + 1 := by simp [Path.below]
  rw [Path.upTo, length, range_succ, map_append, map_congr_left priors, Path.upTo,
    map_singleton, ← length, take_length]

/-- A path leads to a directory after that and all on the way to it were made. -/
structure Reached (path : Path) (t t' : FileTree) : Prop where
  leads : t'.Leads path
  still : t.Extends t'
  files : t'.files = t.files
  new {place : Place} : t'.hasDirectory place = true →
    t.hasDirectory place = true ∨ ∃ prior ∈ path.upTo, place = prior.place

theorem mem_upTo_below {path prior : Path} {names : List String}
    (h : prior ∈ (path.below names).upTo) :
    prior ∈ path.upTo ∨ ∃ front back, names = front ++ back ∧ prior = path.below front := by
  obtain ⟨n, -, rfl⟩ := mem_map.mp h
  by_cases short : n ≤ path.parts.length
  · left
    refine mem_map.mpr ⟨n, mem_range.mpr (by omega), ?_⟩
    simp only [Path.below, take_append_of_le_length short]
  · right
    refine ⟨names.take (n - path.parts.length), names.drop (n - path.parts.length),
      (take_append_drop _ _).symm, ?_⟩
    simp only [Path.below, take_append, take_of_length_le (by omega : path.parts.length ≤ n)]

theorem self_mem_upTo (path : Path) : path ∈ path.upTo := by
  refine mem_map.mpr ⟨path.parts.length, mem_range.mpr (Nat.lt_succ_self _), ?_⟩
  rw [take_length]

/-- Nothing is in the way of a path and of the directories on the way to it. -/
structure Free (path : Path) (t : FileTree) : Prop where
  accepted : FileTree.accept path = .ok ()
  short : ∀ part ∈ path.parts, part = ".." ∨ part.utf8ByteSize ≤ FileTree.nameLimit
  files : ∀ prior ∈ path.upTo, t.hasFile prior.place = false

theorem Free.above {path : Path} (h : Free (path.below [name]) t) : Free path t := by
  refine ⟨FileTree.accept_of_below h.accepted, ?_, ?_⟩
  · exact fun part hp => h.short part (mem_append_left _ hp)
  · intro prior hp
    refine h.files prior ?_
    rw [upTo_below]
    exact mem_append_left _ hp

section

variable {C : Prop} {path : Path} {t' : FileTree}

theorem goes_reach (before : Reached path t t') (free : C → Free (path.below [name]) t) :
    Goes (Refused C) (change (·.makeDirectory (path.below [name]))) t'
      fun _ t'' => Reached (path.below [name]) t t'' := by
  have last : path.below [name] ∈ (path.below [name]).upTo := self_mem_upTo _
  have way : ∀ prior ∈ path.upTo, prior ∈ (path.below [name]).upTo := by
    intro prior hp
    rw [upTo_below]
    exact mem_append_left _ hp
  have blank (c : C) {prior : Path} (hp : prior ∈ (path.below [name]).upTo) :
      t'.hasFile prior.place = false := by
    rw [FileTree.hasFile_congr before.files]
    exact (free c).files prior hp
  refine goes_change (fun t'' made => ?_) fun e failed => ⟨nofun, ?_, fun c => ?_⟩
  · obtain ⟨-, files, directories⟩ := FileTree.makeDirectory_ok made
    refine ⟨FileTree.leads_makeDirectory made,
      before.still.trans (FileTree.extends_makeDirectory made), files.trans before.files, ?_⟩
    intro place there
    rcases (directories place).mp there with old | same
    · exact (before.new old).imp_right fun ⟨prior, hp, same⟩ => ⟨prior, way prior hp, same⟩
    · exact .inr ⟨_, last, same⟩
  · rintro ⟨⟩
    rcases FileTree.makeDirectory_error failed with located | ⟨other, -⟩
    · exact before.leads.not_missing name located
    · cases other
  · rcases FileTree.makeDirectory_error failed with located | ⟨-, file⟩
    · rcases before.leads.locate_below name with found | ⟨e', -, -, why⟩
      · rw [located] at found
        cases found
      · rcases why (free c).accepted with file | ⟨down, long⟩
        · rw [blank c (way path (self_mem_upTo path))] at file
          cases file
        · rcases (free c).short name (mem_append_right _ mem_cons_self) with up | short
          · exact down up
          · omega
    · rw [blank c last] at file
      cases file

theorem goes_start {root : String} (free : C → Free ⟨root, []⟩ t) :
    Goes (Refused C) (change (·.makeDirectory ⟨root, []⟩)) t
      fun _ t' => Reached ⟨root, []⟩ t t' := by
  have refused {e : FileError} (failed : t.locate ⟨root, []⟩ = .error e) :
      FileTree.accept ⟨root, []⟩ = .error e := by
    unfold FileTree.locate at failed
    cases accepted : FileTree.accept ⟨root, []⟩ with
    | error e' =>
      rw [accepted] at failed
      cases failed
      rfl
    | ok _ =>
      rw [accepted] at failed
      cases failed
  refine goes_change (fun t' made => ?_) fun e failed => ⟨nofun, ?_, fun c => ?_⟩
  · obtain ⟨-, files, directories⟩ := FileTree.makeDirectory_ok made
    refine ⟨FileTree.leads_makeDirectory made, FileTree.extends_makeDirectory made, files, ?_⟩
    intro place there
    exact ((directories place).mp there).imp_right fun same => ⟨_, self_mem_upTo _, same⟩
  · rintro ⟨⟩
    rcases FileTree.makeDirectory_error failed with located | ⟨other, -⟩
    · exact FileTree.accept_ne_missing _ (refused located)
    · cases other
  · rcases FileTree.makeDirectory_error failed with located | ⟨-, file⟩
    · have accepted := refused located
      rw [(free c).accepted] at accepted
      cases accepted
    · rw [(free c).files _ (self_mem_upTo _)] at file
      cases file

/-- A path leads to a directory after all directories on the way to it were made. The induction is
on the path from its end, as each directory is made inside the one before it. -/
theorem goes_makeDirectories (free : C → Free path t) :
    Goes (Refused C) (makeDirectories path) t fun _ t' => Reached path t t' := by
  have all : Goes (Refused C) (path.upTo.forM fun prior => change (·.makeDirectory prior)) t
      fun _ t' => Reached path t t' := by
    obtain ⟨root, parts⟩ := path
    induction parts using reverseRec with
    | nil => exact (goes_start free).bind fun _ t' reached => goes_pure reached
    | append_singleton parts name ih =>
      have snoc : (⟨root, parts ++ [name]⟩ : Path) = Path.below ⟨root, parts⟩ [name] := rfl
      rw [snoc] at free ⊢
      rw [upTo_below, forM_eq_forM, forM_append]
      refine (ih fun c => (free c).above).bind fun _ t₁ before => ?_
      exact (goes_reach before free).bind fun _ t' reached => goes_pure reached
  refine (goes_ask (Q := fun _ t' => t' = t) (fun _ _ => rfl) fun e failed => ?_).bind ?_
  · refine ⟨nofun, ?_, fun c => ?_⟩
    · rintro ⟨⟩
      exact FileTree.accept_ne_missing _ failed
    · rw [(free c).accepted] at failed
      cases failed
  · rintro _ _ rfl
    exact all

end

end Writing

end TypeStubs
