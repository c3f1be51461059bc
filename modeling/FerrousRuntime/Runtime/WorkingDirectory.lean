import FerrousRuntime.Runtime.BuildStore

/-! # Where the guest starts

The host's working directory is translated into the guest's tree by the first granted
filesystem that can name it. A path has a guest name only if the part below the root is
UTF-8; one that has none is replaced by the default directory, without an error.
-/
namespace FerrousRuntime.Runtime
open Capability Command Policy Host

def guestPath (index : ℕ) (relative : Path) : Path :=
  ⟨(guestRootFor index).absolute, (guestRootFor index).components ++ relative.components⟩

/-- The directory is the requested one, below the guest root of a granted filesystem. -/
def StartsIn (request : CommandRequest) (directory : Path) : Prop :=
  ∃ index filesystem relative, request.grant.filesystems[index]? = some filesystem ∧
    filesystem.allows request.cwd = true ∧
    request.cwd.stripPrefix filesystem.root = some relative ∧ directory = guestPath index relative

/-- Below the root of some granted filesystem, the requested directory is named in UTF-8. -/
def Expressible (request : CommandRequest) : Prop :=
  ∃ filesystem ∈ request.grant.filesystems, filesystem.allows request.cwd = true ∧
    ∃ relative, request.cwd.stripPrefix filesystem.root = some relative ∧ relative.toStr.isSome

theorem isUtf8_of_ascii {bytes : OsStr} (h : ∀ byte ∈ bytes, byte ≤ 0x7F) : isUtf8 bytes = true := by
  refine decide_eq_true ?_
  induction bytes with
  | nil => rfl
  | cons byte rest ih =>
    obtain ⟨hbyte, hrest⟩ := List.forall_mem_cons.mp h
    simp only [List.foldlM_cons, utf8Next, if_pos hbyte]
    exact ih hrest

theorem isUtf8_ascii {text : String} (h : ∀ c ∈ text.toList, c.toNat ≤ 0x7F) :
    isUtf8 (ascii text) = true := by
  refine isUtf8_of_ascii ?_
  intro byte hbyte
  obtain ⟨c, hc, rfl⟩ := List.mem_map.mp hbyte
  have hle := h c hc
  rw [UInt8.le_iff_toNat_le, UInt8.toNat_ofNat']
  exact (Nat.mod_le _ _).trans hle

theorem guestRootFor_utf8 {index : ℕ} {name : OsStr}
    (h : .normal name ∈ (guestRootFor index).components) : isUtf8 name = true := by
  unfold guestRootFor at h
  split at h
  · cases List.mem_singleton.mp h
    decide
  · cases List.mem_singleton.mp h
    refine isUtf8_ascii ?_
    intro c hc
    rw [String.toList_append] at hc
    rcases List.mem_append.mp hc with hc | hc
    · have hplain : ∀ c ∈ "grant-".toList, c.toNat ≤ 0x7F := by simp
      exact hplain c hc
    · rw [Nat.toString_eq_repr, Nat.toList_repr] at hc
      have hdigit := Nat.isDigit_of_mem_toDigits (by decide) (by decide) hc
      simp only [Char.isDigit, Bool.and_eq_true, decide_eq_true_eq] at hdigit
      have hle : c.val.toNat ≤ 57 := UInt32.le_iff_toNat_le.mp hdigit.2
      exact hle.trans (by decide)

theorem guestRootFor_length (index : ℕ) : (guestRootFor index).components.length = 1 := by
  unfold guestRootFor
  split <;> rfl

theorem toStr_isSome {path : Path} : path.toStr.isSome ↔
    ∀ name, .normal name ∈ path.components → isUtf8 name = true := by
  unfold Path.toStr
  rw [Option.isSome_ite, List.all_eq_true]
  constructor
  · intro h name hname
    exact h _ hname
  · intro h c hc
    cases c with
    | normal name => exact h name hc
    | _ => rfl

theorem toStr_eq_some {path shown : Path} :
    path.toStr = some shown ↔ path.toStr.isSome ∧ shown = path := by
  unfold Path.toStr
  split <;> simp [eq_comm]

theorem toStr_guestPath (index : ℕ) {relative : Path} :
    (guestPath index relative).toStr.isSome ↔ relative.toStr.isSome := by
  rw [toStr_isSome, toStr_isSome]
  constructor
  · intro h name hname
    exact h name (List.mem_append_right _ hname)
  · intro h name hname
    rcases List.mem_append.mp hname with hname | hname
    · exact guestRootFor_utf8 hname
    · exact h name hname

theorem guestPathFor_eq_some {filesystem : FilesystemGrant} {path directory : Path} {index : ℕ} :
    filesystem.guestPathFor path (guestRootFor index) = some directory ↔
      filesystem.allows path = true ∧ ∃ relative, path.stripPrefix filesystem.root = some relative ∧
        relative.toStr.isSome ∧ directory = guestPath index relative := by
  unfold FilesystemGrant.guestPathFor
  cases filesystem.allows path with
  | false => simp
  | true =>
    cases path.stripPrefix filesystem.root with
    | none => simp
    | some relative =>
      simp only [Bool.not_true, Bool.false_eq_true, if_false, true_and, Option.some.injEq,
        exists_eq_left']
      rw [← toStr_guestPath index]
      exact toStr_eq_some

variable {host : HostView} {request : CommandRequest} {store : Store}

theorem buildStore_initialCwd (h : buildStore host request = .ok store) :
    store.initialCwd = ((request.grant.filesystems.zipIdx).findSome?
      (fun entry => entry.1.guestPathFor request.cwd (guestRootFor entry.2))).getD (guestRootFor 0) := by
  obtain ⟨-, -, -, opened, hopened, rfl⟩ := buildStore_eq_ok h
  rw [← openGrants_cwd hopened]

/-- An expressible directory is translated, by the first grant that can name it. -/
theorem startsIn_of_expressible (h : buildStore host request = .ok store) (he : Expressible request) :
    StartsIn request store.initialCwd := by
  obtain ⟨filesystem, hf, hallows, relative, hrelative, hnamed⟩ := he
  rw [buildStore_initialCwd h]
  cases hfind : (request.grant.filesystems.zipIdx).findSome?
      (fun entry => entry.1.guestPathFor request.cwd (guestRootFor entry.2)) with
  | none =>
    obtain ⟨index, hindex⟩ := List.mem_iff_getElem?.mp hf
    have hentry : (filesystem, index) ∈ request.grant.filesystems.zipIdx :=
      List.mk_mem_zipIdx_iff_getElem?.mpr hindex
    have hnone := List.findSome?_eq_none_iff.mp hfind _ hentry
    rw [guestPathFor_eq_some.mpr ⟨hallows, relative, hrelative, hnamed, rfl⟩] at hnone
    cases hnone
  | some directory =>
    obtain ⟨entry, hentry, htranslated⟩ := List.exists_of_findSome?_eq_some hfind
    obtain ⟨hallows', relative', hrelative', -, rfl⟩ := guestPathFor_eq_some.mp htranslated
    exact ⟨entry.2, entry.1, relative', List.mk_mem_zipIdx_iff_getElem?.mp hentry, hallows',
      hrelative', rfl⟩

/-- The default is the requested directory only when that is a root itself. -/
theorem expressible_of_startsIn (h : buildStore host request = .ok store)
    (hs : StartsIn request store.initialCwd) : Expressible request := by
  rw [buildStore_initialCwd h] at hs
  cases hfind : (request.grant.filesystems.zipIdx).findSome?
      (fun entry => entry.1.guestPathFor request.cwd (guestRootFor entry.2)) with
  | none =>
    obtain ⟨index, filesystem, relative, hindex, hallows, hrelative, hdefault⟩ := hs
    rw [hfind, Option.getD_none] at hdefault
    have hlength := congrArg (fun path => path.components.length) hdefault
    simp only [guestPath, List.length_append, guestRootFor_length] at hlength
    have hempty : relative.components = [] := List.length_eq_zero_iff.mp (by omega)
    refine ⟨filesystem, List.mem_of_getElem? hindex, hallows, relative, hrelative, ?_⟩
    exact toStr_isSome.mpr (by simp [hempty])
  | some directory =>
    obtain ⟨entry, hentry, htranslated⟩ := List.exists_of_findSome?_eq_some hfind
    obtain ⟨hallows, relative, hrelative, hnamed, -⟩ := guestPathFor_eq_some.mp htranslated
    exact ⟨entry.1, List.fst_mem_of_mem_zipIdx hentry, hallows, relative, hrelative, hnamed⟩

/-- The guest starts in the requested directory exactly when that has a guest name. -/
theorem starts_in_requested_directory_iff (h : buildStore host request = .ok store) :
    StartsIn request store.initialCwd ↔ Expressible request :=
  ⟨expressible_of_startsIn h, startsIn_of_expressible h⟩

theorem starts_in_requested_directory_root :
    ∃ store, buildStore sampleHost (sampleRequest 1 .read defaultLimits) = .ok store ∧
      StartsIn (sampleRequest 1 .read defaultLimits) store.initialCwd := by
  refine ⟨_, rfl, (@starts_in_requested_directory_iff sampleHost _ _ rfl).mpr ?_⟩
  exact ⟨_, List.mem_singleton_self _, rfl, ⟨false, []⟩, rfl, rfl⟩

def unnamableRequest : CommandRequest :=
  { sampleRequest 1 .read defaultLimits with cwd := placePath [ascii "root", [0xFF]] }

theorem unnamable_directory_replaced :
    ∃ store, buildStore sampleHost unnamableRequest = .ok store ∧ store.initialCwd = guestRootFor 0 ∧
      ¬ StartsIn unnamableRequest store.initialCwd := by
  refine ⟨_, rfl, rfl, ?_⟩
  intro hs
  obtain ⟨filesystem, hf, -, relative, hrelative, hnamed⟩ :=
    @expressible_of_startsIn sampleHost _ _ rfl hs
  cases List.mem_singleton.mp hf
  cases hrelative
  exact absurd hnamed (by decide)

end FerrousRuntime.Runtime
