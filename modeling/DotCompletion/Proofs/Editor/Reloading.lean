import DotCompletion.Editor.Server

/-!
# Settings are read again

A watcher remembers one thing, when the version of the file was written that it found last, and
it does so before it knows whether that version can be loaded. This is enough as long as times tell
versions apart: over any run of writes, removals and looks the templates in use are those of the
last version that a look found and could load (`Watched.reload`).

The versions that looks find are told by the files and the events alone (`Watched.found`). A look
acts on those that differ from the one found before (`Watched.changes`).
-/

namespace DotCompletion

namespace Settings

/-- The templates of a version of a settings file, if it can be loaded. -/
def templates? (path : Bytes) (file : StoredFile) : Option (List Template) :=
  (decode (.ofPath path) file.content).toOption

theorem toOption_load (files : Files) (path : Bytes) :
    (load files path).toOption = (files.get? path).bind (templates? path) := by
  rw [load, Files.read, Files.get?]
  cases files.find path with
  | error fault => rfl
  | ok file =>
      change (Except.mapError _ _).toOption = (decode _ _).toOption
      cases decode (.ofPath path) file.content <;> rfl

end Settings

/-- What happens around a settings file. -/
inductive SettingsEvent where
  /-- Files were written or removed; these are the files from now on. -/
  | stored (files : Files)
  /-- The watcher looks. -/
  | looked

/-- A server with a watcher, and the files by now. -/
structure Watched where
  server : Server
  watcher : Watcher
  files : Files

namespace Watched

open Settings (templates?)

/-- The templates in use. -/
def manager (t : Watched) : Manager := t.server.workspace.manager

/-- The same with other templates in use. -/
def withManager (t : Watched) (m : Manager) : Watched :=
  { t with server.workspace.manager := m }

/-- The watcher looks; the last part tells whether there were new templates. -/
def look (t : Watched) : Watched × Bool :=
  let (server, watcher, new) := t.server.look t.files t.watcher
  (⟨server, watcher, t.files⟩, new)

def step (t : Watched) : SettingsEvent → Watched
  | .stored files => { t with files }
  | .looked => t.look.1

def run (t : Watched) (events : List SettingsEvent) : Watched := events.foldl step t

/-- The versions of a file that the looks of a run find, the first one first. -/
def found (path : Bytes) : Files → List SettingsEvent → List StoredFile
  | _, [] => []
  | _, .stored files :: events => found path files events
  | files, .looked :: events => (files.get? path).toList ++ found path files events

/-- Times tell versions of a file apart. -/
def Dated (versions : List StoredFile) : Prop :=
  ∀ v ∈ versions, ∀ v' ∈ versions, v.modified = v'.modified → v = v'

instance (versions : List StoredFile) : Decidable (Dated versions) :=
  inferInstanceAs (Decidable (∀ v ∈ versions, ∀ v' ∈ versions, v.modified = v'.modified → v = v'))

theorem Dated.mono {versions versions' : List StoredFile} (h : Dated versions')
    (hsub : versions ⊆ versions') : Dated versions :=
  fun v hv v' hv' => h v (hsub hv) v' (hsub hv')

/-- The templates of the last version that can be loaded, or those given if there is none. -/
def lastLoaded (path : Bytes) (first : Manager) (versions : List StoredFile) : Manager :=
  match (versions.filterMap (templates? path)).getLast? with
  | some templates => Template.manager templates
  | none => first

/-- The versions that differ from the one before them. -/
def changes (known : Option StoredFile) : List StoredFile → List StoredFile
  | [] => []
  | v :: versions =>
    if known = some v then changes known versions else v :: changes (some v) versions

section Versions

variable {path : Bytes} {first : Manager} {known : Option StoredFile} {v : StoredFile}
  {versions : List StoredFile}

theorem lastLoaded_singleton : lastLoaded path first [v] =
    (templates? path v).elim first Template.manager := by
  cases hv : templates? path v <;> simp [lastLoaded, hv]

theorem lastLoaded_cons : lastLoaded path first (v :: versions) =
    lastLoaded path (lastLoaded path first [v]) versions := by
  cases hv : templates? path v with
  | none => simp [lastLoaded, hv]
  | some templates => cases h : (versions.filterMap (templates? path)).getLast? <;>
      simp [lastLoaded, hv, h, List.getLast?_cons]

theorem lastLoaded_of_getLast? {templates : List Template} (hlast : versions.getLast? = some v)
    (hv : templates? path v = some templates) :
    lastLoaded path first versions = Template.manager templates := by
  obtain ⟨front, rfl⟩ := List.getLast?_eq_some_iff.mp hlast
  simp [lastLoaded, hv]

theorem getLast?_toList_append (o known : Option StoredFile) (versions : List StoredFile) :
    (o.toList ++ versions).getLast?.or known = versions.getLast?.or (o.or known) := by
  cases o with
  | none => rfl
  | some v =>
      rw [Option.toList_some, List.singleton_append, List.getLast?_cons]
      cases versions.getLast? <;> rfl

/-- The last version found is the last that differed from the one before, or the one known. -/
theorem getLast?_changes :
    (changes known versions).getLast?.or known = versions.getLast?.or known := by
  induction versions generalizing known with
  | nil => rfl
  | cons v versions ih =>
      have hcons : ∀ versions : List StoredFile,
          (v :: versions).getLast?.or known = versions.getLast?.or (some v) :=
        getLast?_toList_append (some v) known
      rw [changes, hcons versions]
      split
      next h =>
        subst h
        exact ih
      next => exact (hcons (changes (some v) versions)).trans ih

theorem lastLoaded_changes_append (o : Option StoredFile) :
    lastLoaded path first (changes known (o.toList ++ versions)) =
      lastLoaded path (lastLoaded path first (changes known o.toList))
        (changes (o.or known) versions) := by
  cases o with
  | none => rfl
  | some v =>
      by_cases h : known = some v
      · simp [changes, h, lastLoaded]
      · simp only [Option.toList_some, List.singleton_append, changes, if_neg h]
        exact lastLoaded_cons

/-- Once the templates of the known version are in use, it does not matter whether that version
is loaded again. -/
theorem lastLoaded_changes (hknown : ∀ v ∈ known, lastLoaded path first [v] = first) :
    lastLoaded path first (changes known versions) = lastLoaded path first versions := by
  induction versions generalizing known first with
  | nil => rfl
  | cons v versions ih =>
      rw [changes, lastLoaded_cons]
      split
      next h => rw [hknown v h, ih hknown]
      next =>
        rw [lastLoaded_cons]
        apply ih
        intro u hu
        obtain rfl : v = u := Option.some.inj hu
        rw [lastLoaded_singleton, lastLoaded_singleton]
        cases templates? path v <;> rfl

theorem changes_eq_nil_iff : changes known versions = [] ↔ ∀ v ∈ versions, known = some v := by
  induction versions with
  | nil => simp [changes]
  | cons v versions ih =>
      rw [changes, List.forall_mem_cons, ← ih]
      by_cases h : known = some v <;> simp [h]

end Versions

section Look

variable {path : Bytes} {first : Manager} {known : Option StoredFile} {t : Watched}

/-- The watcher looks after a path for its server. It knows a version, and some templates are in
use. -/
structure Knows (path : Bytes) (known : Option StoredFile) (inUse : Manager) (t : Watched) :
    Prop where
  path_eq : t.watcher.path = path
  serves : t.watcher.serves = t.server.workspace.number
  seen : t.watcher.seen = known.map StoredFile.modified
  manager_eq : t.manager = inUse

theorem look_of_missing (h : t.files.get? t.watcher.path = none) : t.look = (t, false) := by
  simp only [look, Server.look, h]

theorem look_of_seen {v : StoredFile} (h : t.files.get? t.watcher.path = some v)
    (hseen : t.watcher.seen = some v.modified) : t.look = (t, false) := by
  simp only [look, Server.look, h, hseen, if_pos]

theorem look_of_new {v : StoredFile} (h : t.files.get? t.watcher.path = some v)
    (hseen : t.watcher.seen ≠ some v.modified)
    (hserves : t.watcher.serves = t.server.workspace.number) :
    t.look = ({ t.withManager (lastLoaded t.watcher.path t.manager [v]) with
      watcher := { t.watcher with seen := some v.modified } },
      (templates? t.watcher.path v).isSome) := by
  have hload := Settings.toOption_load t.files t.watcher.path
  rw [h, Option.bind_some] at hload
  rw [lastLoaded_singleton, ← hload]
  simp only [look, Server.look, h, if_neg hseen]
  cases Settings.load t.files t.watcher.path with
  | error e => rfl
  | ok templates =>
      simp only [Server.install, if_pos hserves.symm]
      rfl

/-- What a look does depends on whether the version on the disk is the known one. -/
theorem Knows.look_eq (h : Knows path known first t)
    (hdated : Dated (known.toList ++ (t.files.get? path).toList)) :
    t.look = match t.files.get? path with
      | none => (t, false)
      | some v =>
        if known = some v then (t, false)
        else ({ t.withManager (lastLoaded path first [v]) with
          watcher := { t.watcher with seen := some v.modified } }, (templates? path v).isSome) := by
  obtain ⟨rfl, hserves, hseen, rfl⟩ := h
  cases hv : t.files.get? t.watcher.path with
  | none => exact look_of_missing hv
  | some v =>
      by_cases hknown : known = some v
      · subst hknown
        simpa only [if_pos] using look_of_seen hv hseen
      · have hne : t.watcher.seen ≠ some v.modified := by
          intro heq
          rw [hseen, Option.map_eq_some_iff] at heq
          obtain ⟨v', hv', hmodified⟩ := heq
          apply hknown
          rw [hv', hdated v' (by simp [hv']) v (by simp [hv]) hmodified]
        simpa only [if_neg hknown] using look_of_new hv hne hserves

/-- A look makes the version on the disk the known one, and loads it if it is another one. -/
theorem Knows.look (h : Knows path known first t)
    (hdated : Dated (known.toList ++ (t.files.get? path).toList)) :
    Knows path ((t.files.get? path).or known)
      (lastLoaded path first (changes known (t.files.get? path).toList)) t.look.1 := by
  rw [h.look_eq hdated]
  obtain ⟨hpath, hserves, hseen, hmanager⟩ := h
  cases t.files.get? path with
  | none => exact ⟨hpath, hserves, hseen, hmanager⟩
  | some v =>
      by_cases hknown : known = some v
      · simp only [Option.some_or, Option.toList_some, changes, if_pos hknown]
        exact ⟨hpath, hserves, hknown ▸ hseen, hmanager⟩
      · simp only [Option.some_or, Option.toList_some, changes, if_neg hknown]
        exact ⟨hpath, hserves, rfl, rfl⟩

theorem look_files (t : Watched) : t.look.1.files = t.files := rfl

/-- A run's last finding is known behind it, and those of its findings that were news have been
loaded one after the other. -/
theorem Knows.run (h : Knows path known first t) (events : List SettingsEvent)
    (hdated : Dated (known.toList ++ found path t.files events)) :
    Knows path ((found path t.files events).getLast?.or known)
      (lastLoaded path first (changes known (found path t.files events))) (t.run events) := by
  induction events generalizing t known first with
  | nil => exact h
  | cons e events ih =>
      cases e with
      | stored files =>
          have hstored : Knows path known first { t with files } :=
            ⟨h.path_eq, h.serves, h.seen, h.manager_eq⟩
          exact ih hstored hdated
      | looked =>
          rw [found] at hdated ⊢
          have hnow : Dated (known.toList ++ (t.files.get? path).toList) :=
            hdated.mono fun v hv => by grind
          have hlater : Dated (((t.files.get? path).or known).toList ++
              found path t.look.1.files events) :=
            hdated.mono fun v hv => by
              rw [look_files] at hv
              cases hget : t.files.get? path <;> simp_all
          rw [getLast?_toList_append, lastLoaded_changes_append]
          exact ih (h.look hnow) hlater

/-- Whether there were new templates does not depend on those in use. -/
theorem Knows.look_snd_iff (h : Knows path known first t)
    (hdated : Dated (known.toList ++ (t.files.get? path).toList)) :
    t.look.2 = true ↔ ∃ v templates, t.files.get? path = some v ∧ known ≠ some v ∧
      templates? path v = some templates := by
  rw [h.look_eq hdated]
  cases t.files.get? path with
  | none => simp
  | some v => by_cases hknown : known = some v <;> simp [hknown, Option.isSome_iff_exists]

/-- Without new templates everything stays as it was. -/
theorem Knows.server_look (h : Knows path known first t)
    (hdated : Dated (known.toList ++ (t.files.get? path).toList)) (hfalse : t.look.2 = false) :
    t.look.1.server = t.server := by
  rw [h.look_eq hdated] at hfalse ⊢
  cases hv : t.files.get? path with
  | none => rfl
  | some v =>
      by_cases hknown : known = some v
      · simp only [hknown, if_pos]
      · simp only [hv, if_neg hknown, Option.isSome_eq_false_iff, Option.isNone_iff_eq_none]
          at hfalse
        simp only [if_neg hknown, lastLoaded_singleton, hfalse, Option.elim_none,
          ← h.manager_eq]
        rfl

/-- The look replaces the templates: those in use behind it are the same whatever was in use. -/
def Replaces (t : Watched) : Prop :=
  ∀ m, (t.withManager m).look.1.manager = t.look.1.manager

theorem Knows.look_snd_iff_replaces (h : Knows path known first t)
    (hdated : Dated (known.toList ++ (t.files.get? path).toList)) :
    t.look.2 = true ↔ t.Replaces := by
  have hwith : ∀ m, Knows path known m (t.withManager m) :=
    fun m => ⟨h.path_eq, h.serves, h.seen, rfl⟩
  constructor
  · rw [h.look_snd_iff hdated]
    rintro ⟨v, templates, hv, hne, htemplates⟩ m
    have hchanges : changes known (t.files.get? path).toList = [v] := by simp [changes, hv, hne]
    rw [((hwith m).look hdated).manager_eq, (h.look hdated).manager_eq]
    change lastLoaded path m (changes known (t.files.get? path).toList) = _
    rw [hchanges, lastLoaded_singleton, lastLoaded_singleton, htemplates]
    rfl
  · intro hreplaces
    cases hnew : t.look.2 with
    | true => rfl
    | false =>
        have hkept : ∀ m, (t.withManager m).look.1.manager = m := by
          intro m
          have hnot : (t.withManager m).look.2 = false := by
            rw [← Bool.not_eq_true, h.look_snd_iff hdated] at hnew
            rw [← Bool.not_eq_true, (hwith m).look_snd_iff hdated]
            exact hnew
          exact congrArg (·.workspace.manager) ((hwith m).server_look hdated hnot)
        have hsame : (⟨[]⟩ : Manager) = ⟨[⟨⟨"", "", ""⟩, fun _ _ => none⟩]⟩ := by
          rw [← hkept ⟨[]⟩, hreplaces, ← hreplaces, hkept]
        cases hsame

end Look

/-- A watcher that has not looked yet knows no version. -/
theorem knows_watch (s : Server) (path : Bytes) (files : Files) :
    Knows path none s.workspace.manager ⟨s, s.watch path, files⟩ :=
  ⟨rfl, rfl, rfl, rfl⟩

theorem run_concat (t : Watched) (events : List SettingsEvent) :
    t.run (events ++ [.looked]) = (t.run events).look.1 := by
  rw [run, List.foldl_append]
  rfl

theorem found_concat (path : Bytes) (t : Watched) (events : List SettingsEvent) :
    found path t.files (events ++ [.looked]) =
      found path t.files events ++ ((t.run events).files.get? path).toList := by
  induction events generalizing t with
  | nil => exact List.append_nil _
  | cons e events ih =>
      cases e with
      | stored files => exact ih { t with files }
      | looked =>
          rw [List.cons_append, found, found, List.append_assoc]
          exact congrArg _ (ih t.look.1)

/-- Whatever was written and removed and however often the watcher looked: behind one more look
the templates in use are those of the last version that a look found and could load. The answer
tells whether the look replaced the templates, which it does if the version on the disk is not the
one found last and can be loaded; otherwise the server stays as it was. If the version on the disk
can be loaded, it is the one in use. -/
theorem reload (s : Server) (path : Bytes) (files : Files) (events : List SettingsEvent)
    (hdated : Dated (found path files (events ++ [.looked]))) :
    let t := run ⟨s, s.watch path, files⟩ events
    t.look.1.manager =
      lastLoaded path s.workspace.manager (found path files (events ++ [.looked])) ∧
    (t.look.2 = true ↔ t.Replaces) ∧
    (t.look.2 = true ↔ ∃ v templates, t.files.get? path = some v ∧
      (found path files events).getLast? ≠ some v ∧ templates? path v = some templates) ∧
    (t.look.2 = false → t.look.1.server = t.server) ∧
    ∀ v templates, t.files.get? path = some v → templates? path v = some templates →
      t.look.1.manager = Template.manager templates := by
  intro t
  have hfirst := knows_watch s path files
  have hfound := found_concat path ⟨s, s.watch path, files⟩ events
  have hmanager : t.look.1.manager =
      lastLoaded path s.workspace.manager (found path files (events ++ [.looked])) := by
    have hlast := (hfirst.run (events ++ [.looked]) (by simpa using hdated)).manager_eq
    rw [run_concat, lastLoaded_changes (by simp)] at hlast
    exact hlast
  rw [hfound] at hdated
  have hknows := hfirst.run events (hdated.mono (List.subset_append_left _ _))
  rw [Option.or_none] at hknows
  have hlook : Dated ((found path files events).getLast?.toList ++
      (t.files.get? path).toList) := by
    refine hdated.mono fun v hv => ?_
    rcases List.mem_append.mp hv with hv | hv
    · exact List.mem_append_left _ (List.mem_of_getLast? (Option.mem_toList.mp hv))
    · exact List.mem_append_right _ hv
  refine ⟨hmanager, hknows.look_snd_iff_replaces hlook, hknows.look_snd_iff hlook,
    hknows.server_look hlook, fun v templates hv htemplates => ?_⟩
  rw [hmanager, hfound]
  apply lastLoaded_of_getLast? _ htemplates
  rw [hv, Option.toList_some, List.getLast?_concat]

/-- A settings file with one template, written at some time. -/
def oneTemplate (name : String) (time : Int) : StoredFile :=
  ⟨Bytes.ofString ("[[templates]]\nname = \"" ++ name ++ "\"\nbody = \"$expr\""), time⟩

/-- Files with nothing but settings. -/
def settingsOnly (path : Bytes) (file : StoredFile) : Files := Files.empty.write path file

/-- A version is loaded, a broken one comes and goes, and a third one is written. -/
def rewritten (path : Bytes) : List SettingsEvent :=
  [.looked, .stored (settingsOnly path ⟨Bytes.ofString "[", 2⟩), .looked, .stored .empty, .looked,
    .stored (settingsOnly path (oneTemplate "b" 3))]

theorem reload_rewritten :
    let path := Bytes.ofString "t.toml"
    let first := settingsOnly path (oneTemplate "a" 1)
    let s := Server.start "" []
    let t := run ⟨s, s.watch path, first⟩ (rewritten path)
    found path first (rewritten path ++ [.looked]) =
      [oneTemplate "a" 1, ⟨Bytes.ofString "[", 2⟩, oneTemplate "b" 3] ∧
    t.look.2 = true ∧ t.look.1.manager.registrations.map (·.metadata.name) = ["b"] := by
  intro path first s t
  have hfound : found path first (rewritten path ++ [.looked]) =
      [oneTemplate "a" 1, ⟨Bytes.ofString "[", 2⟩, oneTemplate "b" 3] := by decide +kernel
  have hdated : Dated (found path first (rewritten path ++ [.looked])) := by
    rw [hfound]
    decide +kernel
  obtain ⟨hmanager, -, hnew, -, -⟩ := reload s path first (rewritten path) hdated
  refine ⟨hfound, hnew.mpr ?_, ?_⟩
  · have hloads : (templates? path (oneTemplate "b" 3)).isSome = true := by decide +kernel
    obtain ⟨templates, htemplates⟩ := Option.isSome_iff_exists.mp hloads
    exact ⟨oneTemplate "b" 3, templates, by decide +kernel, by decide +kernel, htemplates⟩
  · rw [hmanager, hfound]
    decide +kernel

end Watched

end DotCompletion
