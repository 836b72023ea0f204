import Mathlib.Data.List.TakeWhile
import Xv6.Fs.Dir

/-! @src fs.c | part:path names | scheme:prog

  `skipelem` takes one element off a path and leaves it in a buffer of `DIRSIZ` bytes that `namex`
  uses for every element. The path is a C string, and the elements are its non-empty pieces between
  slashes, cut to `DIRSIZ` bytes.

      "//a/bbb//c/"  -- skipelem -->  name = a, path = "bbb//c/"  --> …
      start --a--> inode --bbb--> inode --c--> inode           each through `dirlookup` -/

namespace Xv6.Fs.Resolve
open Schemes Prog
open List

def slash : UInt8 := '/'.toUInt8

def copyElem (name elem : List UInt8) : List UInt8 :=
  if DIRSIZ ≤ elem.length then elem.take DIRSIZ ++ name.drop DIRSIZ
  else elem ++ 0 :: name.drop (elem.length + 1)

def element (path : CStr) : List UInt8 := path.takeWhile fun c => c ≠ slash ∧ c ≠ 0

def skipSlashes (path : CStr) : CStr := path.dropWhile (· = slash)

/-- The next path element and the rest. -/
def skipelem (path : CStr) (name : List UInt8) : Option (CStr × List UInt8) :=
  let path := skipSlashes path
  if path.headD 0 = 0 then none
  else some (skipSlashes (path.drop (element path).length), copyElem name (element path))

theorem length_skipSlashes_le (path : CStr) : (skipSlashes path).length ≤ path.length :=
  (dropWhile_suffix _).length_le

variable {path rest : CStr} {name nm : List UInt8}

theorem skipelem_lt (h : skipelem path name = some (rest, nm)) : rest.length < path.length := by
  have hle := length_skipSlashes_le path
  rw [skipelem] at h
  split at h
  · cases h
  · case isFalse hne =>
    cases h
    have hrest := length_skipSlashes_le
      ((skipSlashes path).drop (element (skipSlashes path)).length)
    cases hp : skipSlashes path with
    | nil => exact absurd (by rw [hp]; rfl) hne
    | cons c p =>
      rw [hp] at hle hne hrest
      have hslash : c ≠ slash := by
        intro hc
        have hstop := List.head?_dropWhile_not (· = slash) path
        rw [← skipSlashes, hp] at hstop
        simp [hc] at hstop
      have hpos : 0 < (element (c :: p)).length := by
        rw [element, takeWhile_cons_of_pos (by simpa using ⟨hslash, hne⟩)]
        exact Nat.succ_pos _
      rw [length_drop, length_cons] at hrest
      rw [length_cons] at hle
      omega

variable (sb : Super) (devsw : Devsw)

def ilock (ip : ℕ) : K Unit := do
  let s ← get
  if (s.inode ip).type = 0 then stop "ilock: no type" else pure ()

def follow {α : Type} (found : Option (ℕ × ℕ)) (next : ℕ → K (Option α)) : K (Option α) :=
  match found with
  | none => pure none
  | some (inum, _) => next inum

def namexLoop (nameiparent : Bool) (path : CStr) (name : List UInt8) (ip : ℕ) :
    K (Option (ℕ × List UInt8)) :=
  match _h : skipelem path name with
  | none => pure (if nameiparent then none else some (ip, name))
  | some (rest, nm) => do
    ilock ip
    let s ← get
    if (s.inode ip).type ≠ T_DIR then pure none
    else if nameiparent = true ∧ rest.headD 0 = 0 then pure (some (ip, nm))
    else do
      let found ← dirlookup sb devsw ip nm
      follow found fun next => namexLoop nameiparent rest nm next
termination_by path.length
decreasing_by exact skipelem_lt (by assumption)

def startOf (cwd : ℕ) (path : CStr) : ℕ := if path.headD 0 = slash then ROOTINO else cwd

/-- Follow a path, or all of it but the last element. -/
def namex (cwd : ℕ) (path : CStr) (nameiparent : Bool) (name : List UInt8) :
    K (Option (ℕ × List UInt8)) :=
  namexLoop sb devsw nameiparent path name (startOf cwd path)

def namei (cwd : ℕ) (path : CStr) (name : List UInt8) : K (Option ℕ) := do
  let r ← namex sb devsw cwd path false name
  pure (r.map Prod.fst)

def nameiparent (cwd : ℕ) (path : CStr) (name : List UInt8) : K (Option (ℕ × List UInt8)) :=
  namex sb devsw cwd path true name

/-! ### Components -/

def components (path : CStr) : List (List UInt8) :=
  (((path.takeWhile (· ≠ 0)).splitOnP (· == slash)).filter (· ≠ [])).map (·.take DIRSIZ)

theorem components_eq_nil (h : path.headD 0 = 0) : components path = [] := by
  cases path with
  | nil => rfl
  | cons c p =>
    rw [components, takeWhile_cons_of_neg (by simpa using h)]
    rfl

theorem components_append_slash {p : CStr} (hp : 0 ∉ p) (q : CStr) :
    components (p ++ slash :: q) =
      ((p.splitOnP (· == slash)).filter (· ≠ [])).map (·.take DIRSIZ) ++ components q := by
  have hall : ∀ c ∈ p, decide (c ≠ 0) = true := fun c hc =>
    decide_eq_true fun h => hp (h ▸ hc)
  rw [components, takeWhile_append_of_pos hall, takeWhile_cons_of_pos (by decide),
    splitOnP_append_cons _ _ (by decide), filter_append, map_append]
  rfl

theorem components_slash (q : CStr) : components (slash :: q) = components q :=
  components_append_slash not_mem_nil q

theorem components_skipSlashes (path : CStr) : components (skipSlashes path) = components path := by
  induction path with
  | nil => rfl
  | cons c p ih =>
    by_cases hc : c = slash
    · rw [skipSlashes, dropWhile_cons_of_pos (by simpa using hc), ← skipSlashes, ih, hc,
        components_slash]
    · rw [skipSlashes, dropWhile_cons_of_neg (by simpa using hc)]

theorem mem_element {c : UInt8} (h : c ∈ element path) : c ≠ slash ∧ c ≠ 0 := by
  have hc := mem_takeWhile_imp h
  simpa using hc

theorem zero_notMem_element (path : CStr) : 0 ∉ element path := fun h => (mem_element h).2 rfl

theorem splitOnP_element (path : CStr) :
    (element path).splitOnP (· == slash) = [element path] := by
  refine splitOnP_eq_singleton fun c hc => ?_
  simpa using (mem_element hc).1

theorem element_append_drop (path : CStr) :
    element path ++ path.drop (element path).length = path := by
  have hpre : element path <+: path := takeWhile_prefix _
  conv_rhs => rw [← take_append_drop (element path).length path]
  rw [← prefix_iff_eq_take.mp hpre]

theorem drop_element_head {r : CStr} {c : UInt8} (h : path.drop (element path).length = c :: r)
    : c = slash ∨ c = 0 := by
  have hsplit := element_append_drop path
  rw [h] at hsplit
  by_contra hc
  -- the element would go on with `c`
  have hmore : element (element path ++ c :: r) = element path ++ element (c :: r) := by
    refine takeWhile_append_of_pos fun d hd => ?_
    simpa using mem_element hd
  have hone : element (c :: r) = c :: element r :=
    takeWhile_cons_of_pos (by simpa [not_or] using hc)
  rw [hsplit, hone] at hmore
  have hlen := congrArg List.length hmore
  rw [length_append, length_cons] at hlen
  omega

theorem drop_element (path : CStr) :
    (∃ q, path.drop (element path).length = slash :: q) ∨
      (path.drop (element path).length).headD 0 = 0 ∧ path.takeWhile (· ≠ 0) = element path := by
  have hsplit := element_append_drop path
  have hall : ∀ c ∈ element path, decide (c ≠ 0) = true := fun c hc =>
    decide_eq_true (mem_element hc).2
  cases hr : path.drop (element path).length with
  | nil =>
    rw [hr, append_nil] at hsplit
    refine .inr ⟨rfl, ?_⟩
    conv_lhs => rw [← hsplit]
    exact takeWhile_eq_self_iff.mpr hall
  | cons c r =>
    rw [hr] at hsplit
    rcases drop_element_head hr with rfl | rfl
    · exact .inl ⟨r, rfl⟩
    · refine .inr ⟨rfl, ?_⟩
      conv_lhs => rw [← hsplit]
      rw [takeWhile_append_of_pos hall, takeWhile_cons_of_neg (by simp), append_nil]

theorem components_element (hne : element path ≠ []) :
    components path = (element path).take DIRSIZ ::
      components (skipSlashes (path.drop (element path).length)) := by
  have hfilter : (([element path] : List (List UInt8)).filter (· ≠ [])).map (·.take DIRSIZ) =
      [(element path).take DIRSIZ] := by
    rw [filter_cons_of_pos (by simpa using hne)]
    rfl
  rw [components_skipSlashes]
  rcases drop_element path with ⟨q, hq⟩ | ⟨hend, hstr⟩
  · have hsplit := element_append_drop path
    rw [hq] at hsplit ⊢
    conv_lhs => rw [← hsplit]
    rw [components_append_slash (zero_notMem_element path), splitOnP_element, hfilter,
      components_slash]
    rfl
  · rw [components_eq_nil hend, components, hstr, splitOnP_element, hfilter]

theorem skipSlashes_cases (path : CStr) :
    (skipSlashes path).headD 0 = 0 ∨ element (skipSlashes path) ≠ [] := by
  cases hp : skipSlashes path with
  | nil => exact .inl rfl
  | cons c p =>
    by_cases hc : c = 0
    · exact .inl hc
    · have hslash : c ≠ slash := by
        intro heq
        have hstop := List.head?_dropWhile_not (· = slash) path
        rw [← skipSlashes, hp] at hstop
        simp [heq] at hstop
      refine .inr ?_
      rw [element, takeWhile_cons_of_pos (by simpa using ⟨hslash, hc⟩)]
      exact cons_ne_nil _ _

theorem headD_skipSlashes (path : CStr) :
    (skipSlashes path).headD 0 = 0 ↔ components path = [] := by
  rw [← components_skipSlashes]
  constructor
  · exact components_eq_nil
  · intro h
    rcases skipSlashes_cases path with hnul | hne
    · exact hnul
    · rw [components_element hne] at h
      cases h

theorem skipelem_none : skipelem path name = none ↔ components path = [] := by
  rw [← headD_skipSlashes, skipelem]
  split
  · case isTrue h => exact ⟨fun _ => h, fun _ => rfl⟩
  · case isFalse h =>
    constructor
    · intro hn
      cases hn
    · intro hn
      exact absurd hn h

theorem skipelem_some (h : skipelem path name = some (rest, nm)) : ∃ elem : List UInt8, 0 ∉ elem ∧
      components path = elem.take DIRSIZ :: components rest ∧ nm = copyElem name elem ∧
      (rest.headD 0 = 0 ↔ components rest = []) := by
  rw [skipelem] at h
  split at h
  · cases h
  · case isFalse hne =>
    cases h
    have helem := (skipSlashes_cases path).resolve_left hne
    refine ⟨element (skipSlashes path), zero_notMem_element _, ?_, rfl, ?_⟩
    · rw [← components_skipSlashes path]
      exact components_element helem
    · rw [headD_skipSlashes, components_skipSlashes]

/-! ### The name buffer -/

/-- A buffer with a component in it: the NUL is there only where there is room for it. -/
structure NameBuf (buf c : List UInt8) : Prop where
  length : buf.length = DIRSIZ
  bytes : c <+: buf
  nul : c.length < DIRSIZ → buf[c.length]? = some 0

theorem nameBuf_copyElem {elem : List UInt8} (hn : name.length = DIRSIZ) :
    NameBuf (copyElem name elem) (elem.take DIRSIZ) := by
  unfold copyElem
  split
  · case isTrue h =>
    have hlen : (elem.take DIRSIZ).length = DIRSIZ := length_take_of_le h
    refine ⟨?_, List.prefix_append _ _, fun hlt => absurd hlt (by omega)⟩
    rw [length_append, hlen, length_drop, hn]
    rfl
  · case isFalse h =>
    have htake : elem.take DIRSIZ = elem := take_of_length_le (by omega)
    rw [htake]
    refine ⟨?_, List.prefix_append _ _, fun _ => ?_⟩
    · rw [length_append, length_cons, length_drop, hn]
      omega
    · rw [List.getElem?_append_right le_rfl, Nat.sub_self]
      rfl

theorem NameBuf.key_eq {buf c : List UInt8} (h : NameBuf buf c) (h0 : 0 ∉ c) : key buf = c := by
  obtain ⟨r, rfl⟩ := h.bytes
  have hall : ∀ x ∈ c, decide (x ≠ 0) = true := fun x hx => decide_eq_true fun heq => h0 (heq ▸ hx)
  have hlen := h.length
  rw [key, take_of_length_le hlen.le, takeWhile_append_of_pos hall]
  cases r with
  | nil => exact append_nil c
  | cons x r =>
    rw [length_append, length_cons] at hlen
    have hnul := h.nul (by omega)
    rw [List.getElem?_append_right le_rfl, Nat.sub_self] at hnul
    obtain rfl : x = 0 := Option.some.inj hnul
    rw [takeWhile_cons_of_neg (by simp), append_nil]

/-! ### Static trees -/

/-- A tree that nobody changes: every directory is a map from names to inodes that are in use. -/
structure Static (sb : Super) (s : St) (m : ℕ → List UInt8 → ℕ) : Prop where
  dir : ∀ d, (s.inode d).type = T_DIR → IsDir sb s d ∧ Names (bytes s d) (m d)
  named : ∀ d, (s.inode d).type = T_DIR → ∀ c, m d c ≠ 0 → (s.inode (m d c)).type ≠ 0

/-- Follow the components in order; it fails at one that is looked up in a non-directory or absent. -/
def walk (s : St) (m : ℕ → List UInt8 → ℕ) : List (List UInt8) → ℕ → Option ℕ
  | [], ip => some ip
  | c :: cs, ip => if (s.inode ip).type = T_DIR ∧ m ip c ≠ 0 then walk s m cs (m ip c) else none

variable {sb devsw} {s : St} {m : ℕ → List UInt8 → ℕ}

theorem Static.dirlookup_eq (h : Static sb s m) {d : ℕ} (hd : (s.inode d).type = T_DIR)
    (name : CStr) : ∃ r, dirlookup sb devsw d name s = (.ok r, s) ∧
      (r = none ∧ m d (key name) = 0 ∨ ∃ off, r = some (m d (key name), off) ∧ m d (key name) ≠ 0) := by
  obtain ⟨hdir, hnames⟩ := h.dir d hd
  have hfind := hnames.find name
  refine ⟨_, dirlookup_run hdir, ?_⟩
  cases hf : (List.range (nslots (bytes s d))).find? (fun j => Hit (bytes s d) name j) with
  | none =>
    rw [hf] at hfind
    exact .inl ⟨rfl, hfind⟩
  | some k =>
    rw [hf] at hfind
    obtain ⟨-, hinum, hne, -⟩ := hfind
    exact .inr ⟨DESIZE * k, by rw [Option.map_some, hinum], hne⟩

theorem namexLoop_of_none {parent : Bool} (ip : ℕ) (hs : skipelem path name = none)
    : namexLoop sb devsw parent path name ip =
      pure (if parent then none else some (ip, name)) := by
  rw [namexLoop]
  generalize (if parent then none else some (ip, name)) = y
  split
  · rfl
  · case h_2 rest nm hs' =>
    rw [hs] at hs'
    cases hs'

theorem namexLoop_of_some {parent : Bool} (ip : ℕ) (hs : skipelem path name = some (rest, nm))
    : namexLoop sb devsw parent path name ip = (do
      ilock ip
      let s ← get
      if (s.inode ip).type ≠ T_DIR then pure none
      else if parent = true ∧ rest.headD 0 = 0 then pure (some (ip, nm))
      else do
        let found ← dirlookup sb devsw ip nm
        follow found fun next => namexLoop sb devsw parent rest nm next) := by
  rw [namexLoop]
  generalize (if parent then none else some (ip, name)) = y
  split
  · case h_1 hs' =>
    rw [hs] at hs'
    cases hs'
  · case h_2 rest' nm' hs' =>
    rw [hs] at hs'
    cases hs'
    rfl

theorem Static.namexLoop_turn (h : Static sb s m) {parent : Bool} {ip : ℕ}
    (hs : skipelem path name = some (rest, nm)) (hip : (s.inode ip).type ≠ 0) :
    namexLoop sb devsw parent path name ip s =
      if (s.inode ip).type ≠ T_DIR then (.ok none, s)
      else if parent = true ∧ rest.headD 0 = 0 then (.ok (some (ip, nm)), s)
      else if m ip (key nm) = 0 then (.ok none, s)
      else namexLoop sb devsw parent rest nm (m ip (key nm)) s := by
  have hlock : ilock ip s = (.ok (), s) := by
    rw [ilock, bind_of_ok (get_apply s), if_neg hip, pure_apply]
  rw [namexLoop_of_some ip hs, bind_of_ok hlock, bind_of_ok (get_apply s)]
  by_cases hdir : (s.inode ip).type = T_DIR
  · rw [if_neg (not_not.mpr hdir), if_neg (not_not.mpr hdir)]
    by_cases hlast : parent = true ∧ rest.headD 0 = 0
    · rw [if_pos hlast, if_pos hlast, pure_apply]
    · rw [if_neg hlast, if_neg hlast]
      obtain ⟨r, hr, hcase⟩ := h.dirlookup_eq hdir nm
      rw [bind_of_ok hr]
      rcases hcase with ⟨rfl, hzero⟩ | ⟨off, rfl, hne⟩
      · rw [if_pos hzero]
        rfl
      · rw [if_neg hne]
        rfl
  · rw [if_pos hdir, if_pos hdir, pure_apply]

/-! ### Path names are followed -/

theorem Static.namexLoop_walk (h : Static sb s m) (n : ℕ) : ∀ {path : CStr} {name : List UInt8} {ip : ℕ},
    path.length < n → name.length = DIRSIZ → (s.inode ip).type ≠ 0 →
    ∃ r, namexLoop sb devsw false path name ip s = (.ok r, s) ∧
      r.map Prod.fst = walk s m (components path) ip := by
  -- on the length of the path that is left
  induction n with
  | zero =>
    intro path name ip hlt
    exact absurd hlt (Nat.not_lt_zero _)
  | succ n ih =>
    intro path name ip hlt hname hip
    cases hs : skipelem path name with
    | none =>
      rw [namexLoop_of_none ip hs, skipelem_none.mp hs]
      exact ⟨_, rfl, rfl⟩
    | some q =>
      obtain ⟨rest, nm⟩ := q
      obtain ⟨elem, h0, hcomp, hnm, -⟩ := skipelem_some hs
      have hbuf : NameBuf nm (elem.take DIRSIZ) := hnm ▸ nameBuf_copyElem hname
      have hkey := hbuf.key_eq fun hmem => h0 (mem_of_mem_take hmem)
      have hshort : rest.length < n := (skipelem_lt hs).trans_le (Nat.le_of_lt_succ hlt)
      rw [h.namexLoop_turn hs hip, hcomp, walk, hkey]
      by_cases hdir : (s.inode ip).type = T_DIR
      · rw [if_neg (not_not.mpr hdir), if_neg (fun hp => nomatch hp.1)]
        by_cases hzero : m ip (elem.take DIRSIZ) = 0
        · rw [if_pos hzero, if_neg fun hc => hc.2 hzero]
          exact ⟨none, rfl, rfl⟩
        · rw [if_neg hzero, if_pos ⟨hdir, hzero⟩]
          exact ih hshort hbuf.length (h.named ip hdir _ hzero)
      · rw [if_pos hdir, if_neg fun hc => hdir hc.1]
        exact ⟨none, rfl, rfl⟩

def ParentOf (s : St) (m : ℕ → List UInt8 → ℕ) (cs : List (List UInt8)) (ip : ℕ) :
    Option (ℕ × List UInt8) → Prop
  | some (dp, buf) => ∃ init last, cs = init ++ [last] ∧ walk s m init ip = some dp ∧
      (s.inode dp).type = T_DIR ∧ NameBuf buf last
  | none => ∀ init last, cs = init ++ [last] → ∀ dp, walk s m init ip = some dp →
      (s.inode dp).type ≠ T_DIR

theorem ParentOf.cons {cs : List (List UInt8)} {c : List UInt8} {ip : ℕ}
    {r : Option (ℕ × List UInt8)} (hdir : (s.inode ip).type = T_DIR) (hne : m ip c ≠ 0)
    (hcs : cs ≠ []) (h : ParentOf s m cs (m ip c) r) : ParentOf s m (c :: cs) ip r := by
  have hwalk : ∀ init, walk s m (c :: init) ip = walk s m init (m ip c) := fun init =>
    if_pos ⟨hdir, hne⟩
  cases r with
  | some q =>
    obtain ⟨init, last, rfl, hw, hd, hbuf⟩ := h
    exact ⟨c :: init, last, rfl, (hwalk init).trans hw, hd, hbuf⟩
  | none =>
    intro init last heq dp hw
    cases init with
    | nil =>
      cases heq
      exact absurd rfl hcs
    | cons c' init =>
      obtain ⟨rfl, hrest⟩ := List.cons.inj heq
      rw [hwalk] at hw
      exact h init last hrest dp hw

theorem Static.namexLoop_parent (h : Static sb s m) (n : ℕ) :
    ∀ {path : CStr} {name : List UInt8} {ip : ℕ},
      path.length < n → name.length = DIRSIZ → (s.inode ip).type ≠ 0 →
      ∃ r, namexLoop sb devsw true path name ip s = (.ok r, s) ∧
        ParentOf s m (components path) ip r := by
  induction n with
  | zero =>
    intro path name ip hlt
    exact absurd hlt (Nat.not_lt_zero _)
  | succ n ih =>
    intro path name ip hlt hname hip
    cases hs : skipelem path name with
    | none =>
      rw [namexLoop_of_none ip hs, skipelem_none.mp hs]
      refine ⟨_, rfl, ?_⟩
      intro init last heq
      cases init <;> cases heq
    | some q =>
      obtain ⟨rest, nm⟩ := q
      obtain ⟨elem, h0, hcomp, hnm, hend⟩ := skipelem_some hs
      have hbuf : NameBuf nm (elem.take DIRSIZ) := hnm ▸ nameBuf_copyElem hname
      have hkey := hbuf.key_eq fun hmem => h0 (mem_of_mem_take hmem)
      have hshort : rest.length < n := (skipelem_lt hs).trans_le (Nat.le_of_lt_succ hlt)
      rw [h.namexLoop_turn hs hip, hcomp, hkey]
      by_cases hdir : (s.inode ip).type = T_DIR
      · rw [if_neg (not_not.mpr hdir)]
        by_cases hlast : components rest = []
        · rw [if_pos ⟨rfl, hend.mpr hlast⟩, hlast]
          exact ⟨_, rfl, [], _, rfl, rfl, hdir, hbuf⟩
        · rw [if_neg fun hp => hlast (hend.mp hp.2)]
          by_cases hzero : m ip (elem.take DIRSIZ) = 0
          · rw [if_pos hzero]
            refine ⟨none, rfl, ?_⟩
            intro init last heq dp hw
            cases init with
            | nil =>
              obtain ⟨-, hnil⟩ := List.cons.inj heq
              exact absurd hnil hlast
            | cons c init =>
              obtain ⟨rfl, -⟩ := List.cons.inj heq
              rw [walk, if_neg fun hc => hc.2 hzero] at hw
              cases hw
          · rw [if_neg hzero]
            obtain ⟨r, hr, hp⟩ := ih hshort hbuf.length
              (h.named ip hdir _ hzero)
            exact ⟨r, hr, hp.cons hdir hzero hlast⟩
      · rw [if_pos hdir]
        refine ⟨none, rfl, ?_⟩
        intro init last heq dp hw
        cases init with
        | nil =>
          cases hw
          exact hdir
        | cons c init =>
          rw [walk, if_neg fun hc => hdir hc.1] at hw
          cases hw

/-- `namei` follows the components of the path, `nameiparent` those before the last; and where the
  slashes are makes no difference beyond the first character. -/
theorem paths_followed (sb : Super) (devsw : Devsw) (s : St) (m : ℕ → List UInt8 → ℕ)
    (h : Static sb s m) (cwd : ℕ) (hcwd : (s.inode cwd).type ≠ 0)
    (hroot : (s.inode ROOTINO).type ≠ 0) (path : CStr) (name : List UInt8)
    (hname : name.length = DIRSIZ) :
    namei sb devsw cwd path name s =
      (.ok (walk s m (components path) (startOf cwd path)), s) ∧
    (∃ r, nameiparent sb devsw cwd path name s = (.ok r, s) ∧
      ParentOf s m (components path) (startOf cwd path) r) ∧
    (∀ q, components (slash :: q) = components q) ∧
    ∀ p q, 0 ∉ p → components (p ++ slash :: slash :: q) = components (p ++ slash :: q) ∧
      components (p ++ [slash]) = components p := by
  have hstart : (s.inode (startOf cwd path)).type ≠ 0 := by
    unfold startOf
    split
    · exact hroot
    · exact hcwd
  refine ⟨?_, h.namexLoop_parent _ (Nat.lt_succ_self _) hname hstart, components_slash, ?_⟩
  · obtain ⟨r, hr, hw⟩ := h.namexLoop_walk _ (Nat.lt_succ_self _) hname hstart
    rw [namei, namex, bind_of_ok hr, pure_apply, hw]
  · intro p q hp
    constructor
    · rw [components_append_slash hp, components_append_slash hp, components_slash]
    · have hall : ∀ c ∈ p, decide (c ≠ 0) = true := fun c hc =>
        decide_eq_true fun heq => hp (heq ▸ hc)
      have hnil : components [] = [] := rfl
      rw [components_append_slash hp, hnil, append_nil, components,
        takeWhile_eq_self_iff.mpr hall]

/-- The root has an entry `a` for the directory 2, and that has an entry `b` for the file 3. -/
def tree : St where
  data := fun b k =>
    if k.val = 0 then UInt8.ofNat (b - 8) else if k.val = 2 then UInt8.ofNat (b + 87) else 0
  used := fun b => decide (b < 12)
  dinode := fun _ => ⟨0, 0, 0, 0, 0, fun _ => 0⟩
  inode := fun i => ⟨if i = 3 then T_FILE else if i = 1 ∨ i = 2 then T_DIR else 0, 0, 0, 1,
    if i = 1 ∨ i = 2 then 16 else 0, fun k => if k = 0 ∧ (i = 1 ∨ i = 2) then i + 9 else 0⟩

def treeMap (d : ℕ) (c : List UInt8) : ℕ :=
  if d = 1 ∧ c = [97] then 2 else if d = 2 ∧ c = [98] then 3 else 0

theorem name_tree (t : Slot) :
    Fs.name tree t = if t = .blk 1 0 then 10 else if t = .blk 2 0 then 11 else 0 := by
  cases t with
  | root i => simp [Fs.name, tree, NDIRECT]
  | blk i bn =>
    simp only [Fs.name, tree, NDIRECT, Slot.blk.injEq, OfNat.ofNat_ne_zero, false_and, if_false,
      if_true]
    split_ifs <;> omega

theorem owned_tree : Owned twentyBlocks tree := by
  have hlive : Valid tree (.blk 1 0) ∧ Valid tree (.blk 2 0) := by
    simp [Valid, Live, tree, T_DIR, MAXFILE, NDIRECT]
  constructor
  · intro t t' _ _ hne heq
    rw [name_tree, name_tree] at heq
    rw [name_tree] at hne
    split_ifs at heq hne <;> simp_all
  · intro t _ hne
    rw [name_tree] at hne ⊢
    split_ifs at hne ⊢ <;> simp_all [twentyBlocks]
  · intro b hb
    refine (decide_eq_true_iff (p := b < 12)).trans ?_
    simp only [twentyBlocks]
    constructor
    · intro hlt
      by_cases h10 : b = 10
      · exact .inr ⟨_, hlive.1, by rw [name_tree, if_pos rfl, h10]⟩
      · by_cases h11 : b = 11
        · exact .inr ⟨_, hlive.2, by rw [name_tree, if_neg (by simp), if_pos rfl, h11]⟩
        · exact .inl (by omega)
    · rintro (hlow | ⟨t, _, rfl⟩)
      · omega
      · rw [name_tree]
        split_ifs <;> omega
  · intro i bn _ hlt
    simp only [tree, BSIZE] at hlt
    split_ifs at hlt with hi
    · obtain rfl : bn = 0 := by omega
      rw [name_tree]
      rcases hi with rfl | rfl <;> simp
    · omega
  · intro i _
    simp only [tree]
    split_ifs <;> decide

theorem static_tree : Static twentyBlocks tree treeMap := by
  have hdirs : ∀ d, (tree.inode d).type = T_DIR → d = 1 ∨ d = 2 := by
    intro d hd
    by_contra hne
    simp only [tree, if_neg hne] at hd
    split_ifs at hd <;> cases hd
  have hone : bytes tree 1 = [2, 0, 97] ++ replicate 13 0 := by decide +kernel
  have htwo : bytes tree 2 = [3, 0, 98] ++ replicate 13 0 := by decide +kernel
  refine ⟨fun d hd => ?_, fun d _ c hc => ?_⟩
  · have hdir : IsDir twentyBlocks tree d :=
      ⟨owned_tree, by rw [Live, hd]; decide, hd, by rcases hdirs d hd with rfl | rfl <;> decide⟩
    refine ⟨hdir, ?_⟩
    rcases hdirs d hd with rfl | rfl
    on_goal 1 => rw [hone]
    on_goal 2 => rw [htwo]
    -- either directory has the one slot 0
    all_goals
      refine ⟨fun j k hj hk _ _ _ => (Nat.lt_one_iff.mp hj).trans (Nat.lt_one_iff.mp hk).symm,
        fun k hk _ => ?_, fun c hc => ⟨0, by decide, by decide, ?_⟩⟩
      · obtain rfl : k = 0 := Nat.lt_one_iff.mp hk
        decide
      · simp only [treeMap] at hc
        split_ifs at hc with h1 h2
        all_goals first | omega | (rw [h1.2]; decide) | (rw [h2.2]; decide)
  · simp only [treeMap] at hc ⊢
    split_ifs at hc ⊢ <;> first | decide | exact absurd rfl hc

/-- `/a//b` in that tree: `namei` returns the file, `nameiparent` the directory 2. -/
theorem paths_followed_tree :
    (namei twentyBlocks noDevices 1 [slash, 97, slash, slash, 98] (replicate DIRSIZ 0)
      tree).1 = .ok (some 3) ∧
    ∃ r, nameiparent twentyBlocks noDevices 1 [slash, 97, slash, slash, 98]
      (replicate DIRSIZ 0) tree = (.ok r, tree) ∧ ParentOf tree treeMap [[97], [98]] 1 r := by
  have hlive : (tree.inode 1).type ≠ 0 := by decide
  obtain ⟨hnamei, hparent, -⟩ := paths_followed twentyBlocks noDevices tree _ static_tree 1
    hlive hlive [slash, 97, slash, slash, 98] (replicate DIRSIZ 0) length_replicate
  exact ⟨by rw [hnamei]; decide, hparent⟩

end Xv6.Fs.Resolve
