import DotCompletion.Proofs.Editor.Reloading

/-!
# Settings at the start

A server loads its settings when it is greeted. Its watcher begins later, and takes the version that
is on the disk by then for known, whether anybody loaded it or not. A version that is written in
between is therefore loaded only when another one has been found (`Watched.startup`).
-/

namespace DotCompletion

namespace Watched

open Settings (templates?)

/-- The watcher of a server that was greeted begins with the version on the disk. -/
theorem knows_watcher? {s : Server} {files : Files} {w : Watcher}
    (hw : s.watcher? files = some w) :
    Knows s.settings (files.get? s.settings) s.workspace.manager ⟨s, w, files⟩ := by
  rw [Server.watcher?] at hw
  split at hw
  · cases hw
  · obtain rfl := Option.some.inj hw
    exact ⟨rfl, rfl, rfl, rfl⟩

/-- A server is greeted, its watcher begins, and files are written and looked at in any order.
Behind one more look the templates in use are those of the version on the disk if some look found
another version than the watcher began with. Otherwise they are still those of the greeting, which
is right only if these make the same of the file. -/
theorem startup {s : Server} {before files : Files} {root uri : Option Bytes} {w : Watcher}
    (events : List SettingsEvent) {v : StoredFile} {templates : List Template}
    (hw : (s.greet before root uri).watcher? files = some w)
    (hdated : Dated ((files.get? s.settings).toList ++
      found s.settings files (events ++ [.looked])))
    (hv : (run ⟨s.greet before root uri, w, files⟩ events).files.get? s.settings = some v)
    (htemplates : templates? s.settings v = some templates) :
    let t := run ⟨s.greet before root uri, w, files⟩ events
    let news := ∃ v' ∈ found s.settings files (events ++ [.looked]),
      files.get? s.settings ≠ some v'
    (news → t.look.1.manager = Template.manager templates) ∧
    (¬ news → t.look.1.manager = Template.manager (s.templates before)) ∧
    (t.look.1.manager = Template.manager templates ↔
      news ∨ Template.manager (s.templates before) = Template.manager templates) := by
  intro t news
  generalize hall : found s.settings files (events ++ [.looked]) = all at hdated
  have hmanager : t.look.1.manager = lastLoaded s.settings (Template.manager (s.templates before))
      (changes (files.get? s.settings) all) := by
    have hstart : Knows s.settings (files.get? s.settings) (Template.manager (s.templates before))
        ⟨s.greet before root uri, w, files⟩ := knows_watcher? hw
    have hrun := (hstart.run (events ++ [.looked]) (by rwa [hall])).manager_eq
    rw [run_concat, hall] at hrun
    exact hrun
  have hlast : all.getLast? = some v := by
    have hfound := found_concat s.settings ⟨s.greet before root uri, w, files⟩ events
    rw [← hall, hfound, hv, Option.toList_some, List.getLast?_concat]
  have hnews : news → t.look.1.manager = Template.manager templates := by
    intro ⟨v', hv', hne⟩
    rw [hall] at hv'
    have hchanged : changes (files.get? s.settings) all ≠ [] :=
      fun hnil => hne (changes_eq_nil_iff.mp hnil v' hv')
    have heq : (changes (files.get? s.settings) all).getLast?.or (files.get? s.settings) =
        all.getLast?.or (files.get? s.settings) := getLast?_changes
    rw [hlast, Option.some_or, List.getLast?_eq_some_getLast hchanged, Option.some_or] at heq
    rw [hmanager]
    apply lastLoaded_of_getLast? _ htemplates
    rw [List.getLast?_eq_some_getLast hchanged, heq]
  have hold : ¬ news → t.look.1.manager = Template.manager (s.templates before) := by
    intro hnot
    have hnil := changes_eq_nil_iff.mpr fun v' hv' =>
      Classical.byContradiction fun hne => hnot ⟨v', hall ▸ hv', hne⟩
    rw [hmanager, hnil]
    rfl
  refine ⟨hnews, hold, ?_⟩
  by_cases h : news
  · exact iff_of_true (hnews h) (.inl h)
  · rw [hold h, or_iff_right h]

theorem startup_written_later :
    let path := Bytes.ofString "t.toml"
    let first := settingsOnly path (oneTemplate "a" 1)
    let s := (Server.start "" path).greet first none none
    let w : Watcher := ⟨path, 1, some 1⟩
    let t := run ⟨s, w, first⟩ [.looked, .stored (settingsOnly path (oneTemplate "b" 2))]
    s.watcher? first = some w ∧
      ∃ templates, templates? path (oneTemplate "b" 2) = some templates ∧
        t.look.1.manager = Template.manager templates := by
  intro path first s w t
  have hw : s.watcher? first = some w := by decide +kernel
  have hloads : (templates? path (oneTemplate "b" 2)).isSome = true := by decide +kernel
  obtain ⟨templates, htemplates⟩ := Option.isSome_iff_exists.mp hloads
  refine ⟨hw, templates, htemplates, ?_⟩
  obtain ⟨hnews, -, -⟩ := startup [.looked, .stored (settingsOnly path (oneTemplate "b" 2))] hw
    (by decide +kernel) (by decide +kernel) htemplates
  exact hnews ⟨oneTemplate "b" 2, by decide +kernel, by decide +kernel⟩

/-- The settings are written between the greeting and the beginning of the watcher: the server
keeps the templates of the version that is gone. -/
theorem stale_of_written_between :
    let path := Bytes.ofString "t.toml"
    let first := settingsOnly path (oneTemplate "a" 1)
    let later := settingsOnly path (oneTemplate "b" 2)
    let s := (Server.start "" path).greet first none none
    ∃ w templates, s.watcher? later = some w ∧
      (later.get? path).bind (templates? path) = some templates ∧
      (run ⟨s, w, later⟩ [.looked]).look.1.manager ≠ Template.manager templates := by
  intro path first later s
  have hloads : ((later.get? path).bind (templates? path)).isSome = true := by decide +kernel
  obtain ⟨templates, htemplates⟩ := Option.isSome_iff_exists.mp hloads
  refine ⟨⟨path, 1, some 2⟩, templates, by decide +kernel, htemplates, fun heq => ?_⟩
  have hold : (run ⟨s, ⟨path, 1, some 2⟩, later⟩ [.looked]).look.1.manager.registrations.map
      (·.metadata.name) = ["a"] := by decide +kernel
  have hnew : ((later.get? path).bind (templates? path)).map
      (fun templates => (Template.manager templates).registrations.map (·.metadata.name)) =
        some ["b"] := by decide +kernel
  rw [htemplates, Option.map_some, ← heq, hold] at hnew
  simp at hnew

end Watched

end DotCompletion
