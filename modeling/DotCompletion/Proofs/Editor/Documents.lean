import DotCompletion.Editor.Server
import Mathlib.Data.List.Induction

/-!
# The last writer wins

An editor speaks about many documents in any order, and some of what it says counts for nothing:
an address that means no path, a change without the whole text, a file that cannot be read. What
a server holds for a path is read off the events alone (`DocumentEvent.latest`), without a server:
it is the last text that came for the path since it was closed last. Completions come out as if
that text were all the server had ever been told (`Server.serve_documents`).
-/

namespace DotCompletion

open Source (EditorPosition)

/-- What an editor says about a document, or asks. -/
inductive DocumentEvent where
  | opened (uri text : Bytes)
  | changed (uri : Bytes) (changes : List Change)
  /-- The document was saved, maybe with its text; these are the files by then. -/
  | saved (files : Files) (uri : Bytes) (text : Option Bytes)
  | closed (uri : Bytes)
  | completion (uri : Bytes) (place : EditorPosition) (force : Bool)

namespace DocumentEvent

variable {path : Bytes}

/-- The address of the document. -/
def uri : DocumentEvent → Bytes
  | opened uri _ | changed uri _ | saved _ uri _ | closed uri | completion uri _ _ => uri

/-- It is asked for completions. -/
def asks : DocumentEvent → Bool
  | completion .. => true
  | _ => false

/-- The text that comes with the event, if its address means the path. -/
def textAt? (path : Bytes) : DocumentEvent → Option Bytes
  | opened _ text => some text
  | changed _ changes =>
    match changes.getLast? with
    | some (.whole text) => some text
    | _ => none
  | saved files _ text => text <|> (files.read path).toOption
  | closed _ | completion .. => none

/-- The text that the event brings for a path. -/
def text? (path : Bytes) (e : DocumentEvent) : Option Bytes :=
  if Uri.path? e.uri = some path then e.textAt? path else none

/-- The event closes the document with a path. -/
def closes (path : Bytes) : DocumentEvent → Bool
  | closed uri => Uri.path? uri == some path
  | _ => false

/-- The text of the last event that brought one for a path since it was closed last. -/
def latest (path : Bytes) (events : List DocumentEvent) : Option Bytes :=
  (events.reverse.takeWhile (!closes path ·)).findSome? (text? path)

theorem latest_concat (events : List DocumentEvent) (e : DocumentEvent) :
    latest path (events ++ [e]) =
      if e.closes path then none else e.text? path <|> latest path events := by
  rw [latest, List.reverse_append]
  by_cases h : e.closes path = true
  · simp [h]
  · cases htext : e.text? path with
    | none => simp [h, htext, latest]
    | some text => simp [h, htext]

theorem closes_eq_false {e : DocumentEvent} (h : Uri.path? e.uri ≠ some path) :
    closes path e = false := by
  cases e with
  | closed uri => exact beq_eq_false_iff_ne.mpr h
  | opened | changed | saved | completion => rfl

theorem text?_eq_none {e : DocumentEvent} (h : Uri.path? e.uri ≠ some path) :
    e.text? path = none := if_neg h

/-- What is said about other documents does not count. -/
theorem latest_filter_path (events : List DocumentEvent) :
    latest path (events.filter fun e => Uri.path? e.uri = some path) = latest path events := by
  induction events using List.reverseRecOn with
  | nil => rfl
  | append_singleton events e ih =>
      rw [List.filter_append, latest_concat]
      by_cases h : Uri.path? e.uri = some path
      · have hkept : [e].filter (fun e => Uri.path? e.uri = some path) = [e] := by simp [h]
        rw [hkept, latest_concat, ih]
      · have hleft : [e].filter (fun e => Uri.path? e.uri = some path) = [] := by simp [h]
        rw [hleft, List.append_nil, ih, closes_eq_false h, text?_eq_none h]
        rfl

end DocumentEvent

namespace Workspace

variable (w : Workspace) (p path content : Bytes)

theorem get?_remove : (w.remove p).get? path = if path = p then none else w.get? path := by
  rw [get?, remove, List.find?_filter]
  split
  next h =>
    subst h
    simp
  next h =>
    apply congrArg (List.find? · w.documents)
    ext d
    by_cases hd : d.path = path <;> simp [hd, h]

theorem get?_update : (w.update p content).get? path =
    if path = p then some (.ofContent p content) else w.get? path := by
  rw [get?, update, List.find?_cons]
  by_cases h : path = p
  · simp [h, Document.ofContent]
  · have hne : (Document.ofContent p content).path ≠ path := fun heq => h heq.symm
    rw [if_neg h, beq_eq_false_iff_ne.mpr hne]
    exact (w.get?_remove p path).trans (if_neg h)

end Workspace

namespace Server

open DocumentEvent (latest)

/-- The server when an event has been dealt with, and its answer if it was asked. -/
def handle (s : Server) : DocumentEvent → Server × Option (List CompletionItem)
  | .opened uri text => (s.opened uri text, none)
  | .changed uri changes => (s.changed uri changes, none)
  | .saved files uri text => (s.saved files uri text, none)
  | .closed uri => (s.closed uri, none)
  | .completion uri place force => (s, s.completions uri place force)

/-- The server behind a run. -/
def serve (s : Server) (events : List DocumentEvent) : Server :=
  events.foldl (fun s e => (s.handle e).1) s

section Step

variable (s : Server) (path : Bytes)

theorem serve_concat (events : List DocumentEvent) (e : DocumentEvent) :
    s.serve (events ++ [e]) = ((s.serve events).handle e).1 := by
  rw [serve, List.foldl_append]
  rfl

/-- A change that leaves other paths alone is made where the address points, or nowhere. -/
theorem get?_withPath {f : Workspace → Bytes → Workspace} (uri : Bytes)
    (hf : ∀ w p, path ≠ p → (f w p).get? path = w.get? path) :
    (s.withPath uri f).workspace.get? path =
      if Uri.path? uri = some path then (f s.workspace path).get? path
      else s.workspace.get? path := by
  rw [withPath]
  cases hpath : Uri.path? uri with
  | none => rfl
  | some p =>
      by_cases h : path = p
      · subst h
        rw [if_pos rfl]
      · rw [if_neg fun heq => h (Option.some.inj heq).symm]
        exact hf _ _ h

theorem get?_opened (uri text : Bytes) : (s.opened uri text).workspace.get? path =
    if Uri.path? uri = some path then some (.ofContent path text) else s.workspace.get? path := by
  rw [opened, get?_withPath]
  · rw [Workspace.get?_update, if_pos rfl]
  · intro w p h
    rw [Workspace.get?_update, if_neg h]

theorem get?_changed (uri : Bytes) (changes : List Change) :
    (s.changed uri changes).workspace.get? path =
      (((DocumentEvent.changed uri changes).text? path).map (Document.ofContent path) <|>
        s.workspace.get? path) := by
  rw [changed, DocumentEvent.text?, DocumentEvent.textAt?, DocumentEvent.uri]
  rcases changes.getLast? with _ | ⟨text⟩ | _
  · rw [ite_self]
    rfl
  · simp only [get?_opened]
    split <;> rfl
  · rw [ite_self]
    rfl

theorem get?_saved (files : Files) (uri : Bytes) (text : Option Bytes) :
    (s.saved files uri text).workspace.get? path =
      (((DocumentEvent.saved files uri text).text? path).map (Document.ofContent path) <|>
        s.workspace.get? path) := by
  rw [saved, get?_withPath, DocumentEvent.text?, DocumentEvent.textAt?, DocumentEvent.uri]
  · split
    next =>
      cases text <|> (files.read path).toOption with
      | none => rfl
      | some text => exact (s.workspace.get?_update path path text).trans (if_pos rfl)
    next => rfl
  · intro w p h
    cases text <|> (files.read p).toOption with
    | none => rfl
    | some text => exact (w.get?_update p path text).trans (if_neg h)

theorem get?_closed (uri : Bytes) : (s.closed uri).workspace.get? path =
    if Uri.path? uri = some path then none else s.workspace.get? path := by
  rw [closed, get?_withPath]
  · rw [Workspace.get?_remove, if_pos rfl]
  · intro w p h
    rw [Workspace.get?_remove, if_neg h]

/-- What one event does to what is held for a path. -/
theorem get?_handle (e : DocumentEvent) : (s.handle e).1.workspace.get? path =
    if e.closes path then none
    else (e.text? path).map (Document.ofContent path) <|> s.workspace.get? path := by
  cases e with
  | opened uri text =>
      rw [handle, get?_opened, DocumentEvent.text?, DocumentEvent.uri]
      split <;> rfl
  | changed uri changes => exact s.get?_changed path uri changes
  | saved files uri text => exact s.get?_saved path files uri text
  | closed uri =>
      rw [handle, get?_closed, DocumentEvent.text?, DocumentEvent.closes, DocumentEvent.textAt?]
      simp
  | completion uri place force =>
      rw [handle, DocumentEvent.text?, DocumentEvent.textAt?, ite_self]
      rfl

theorem manager_handle (e : DocumentEvent) :
    (s.handle e).1.workspace.manager = s.workspace.manager := by
  have hwith : ∀ uri f, (∀ w p, (f w p : Workspace).manager = w.manager) →
      (s.withPath uri f).workspace.manager = s.workspace.manager := by
    intro uri f hf
    rw [withPath]
    split
    · exact hf _ _
    · rfl
  cases e with
  | opened uri text => exact hwith _ _ fun _ _ => rfl
  | changed uri changes =>
      rw [handle, changed]
      split
      · exact hwith _ _ fun _ _ => rfl
      · rfl
  | saved files uri text =>
      apply hwith
      intro w p
      dsimp only
      cases text <|> (files.read p).toOption <;> rfl
  | closed uri => exact hwith _ _ fun _ _ => rfl
  | completion uri place force => rfl

end Step

section Run

variable (s : Server) (events : List DocumentEvent)

theorem get?_serve (path : Bytes) (hnone : s.workspace.get? path = none) :
    (s.serve events).workspace.get? path = (latest path events).map (Document.ofContent path) := by
  induction events using List.reverseRecOn with
  | nil => exact hnone
  | append_singleton events e ih =>
      rw [serve_concat, get?_handle, ih, DocumentEvent.latest_concat]
      split
      · rfl
      · cases e.text? path <;> rfl

theorem manager_serve : (s.serve events).workspace.manager = s.workspace.manager := by
  induction events using List.reverseRecOn with
  | nil => rfl
  | append_singleton events e ih => rw [serve_concat, manager_handle, ih]

/-- Questions leave no trace, wherever in a run they are asked. -/
theorem serve_filter_not_asks : s.serve (events.filter (!·.asks)) = s.serve events := by
  induction events using List.reverseRecOn with
  | nil => rfl
  | append_singleton events e ih =>
      rw [List.filter_append, serve_concat, ← ih]
      cases e with
      | completion uri place force => exact congrArg s.serve (List.append_nil _)
      | opened | changed | saved | closed =>
          rw [List.filter_cons_of_pos (by rfl), List.filter_nil, serve_concat]

/-- An answer depends on the document asked about and on the templates alone. -/
theorem completions_congr {t : Server} {uri : Bytes}
    (hmanager : s.workspace.manager = t.workspace.manager)
    (hget : ∀ path, Uri.path? uri = some path → s.workspace.get? path = t.workspace.get? path)
    (place : EditorPosition) (force : Bool) :
    s.completions uri place force = t.completions uri place force := by
  rw [completions, completions]
  cases hpath : Uri.path? uri with
  | none => rfl
  | some path =>
      have heq := hget path hpath
      simp only [Option.bind_eq_bind, Option.bind_some, Workspace.proposalsAt, heq, hmanager]

theorem completions_eq_none {uri : Bytes}
    (h : ∀ path, Uri.path? uri = some path → s.workspace.get? path = none)
    (place : EditorPosition) (force : Bool) : s.completions uri place force = none := by
  rw [completions]
  cases hpath : Uri.path? uri with
  | none => rfl
  | some path => simp only [Option.bind_eq_bind, Option.bind_some, h path hpath, Option.bind_none]

end Run

/-- A server without documents. -/
def fresh (version : String) (settings : Bytes) (number : Nat) (root : Bytes)
    (manager : Manager) : Server :=
  ⟨version, settings, .start number root manager⟩

/-- Whoever holds one text for each path, or none, answers like a server that was told the text
of the document in question and nothing else. -/
theorem completions_eq_fresh {t : Server} {texts : Bytes → Option Bytes}
    (hstored : ∀ path, t.workspace.get? path = (texts path).map (Document.ofContent path))
    (version : String) (settings : Bytes) (number : Nat) (root uri : Bytes)
    (place : EditorPosition) (force : Bool) :
    t.completions uri place force =
      (Uri.path? uri).bind fun path => (texts path).bind fun text =>
        ((fresh version settings number root t.workspace.manager).opened uri text).completions
          uri place force := by
  cases hpath : Uri.path? uri with
  | none => exact t.completions_eq_none (fun path h => by simp [hpath] at h) place force
  | some path =>
      rw [Option.bind_some]
      cases htext : texts path with
      | none =>
          apply t.completions_eq_none
          intro p hp
          obtain rfl : path = p := Option.some.inj (hpath.symm.trans hp)
          rw [hstored, htext]
          rfl
      | some text =>
          rw [Option.bind_some]
          apply t.completions_congr
          · exact ((fresh version settings number root _).manager_handle (.opened uri text)).symm
          · intro p hp
            obtain rfl : path = p := Option.some.inj (hpath.symm.trans hp)
            rw [hstored, htext, get?_opened, if_pos hpath]
            rfl

/-- After any run a server that was greeted holds for each path the text that came for it last,
read as a file; what was said about other paths, and what was asked, makes no difference. A
question is answered as by any server with the same templates that was told this one text. -/
theorem serve_documents (s : Server) (files : Files) (root uri : Option Bytes)
    (events : List DocumentEvent) :
    let first := s.greet files root uri
    let t := first.serve events
    (∀ path, t.workspace.get? path =
      (latest path events).map fun text => ⟨path, text, .parse .compilationUnit text⟩) ∧
    (∀ path, t.workspace.get? path =
      (first.serve (events.filter fun e => Uri.path? e.uri = some path)).workspace.get? path) ∧
    t = first.serve (events.filter (!·.asks)) ∧
    t.workspace.manager = first.workspace.manager ∧
    ∀ version settings number root uri place force,
      t.handle (.completion uri place force) =
        (t, (Uri.path? uri).bind fun path => (latest path events).bind fun text =>
          ((fresh version settings number root t.workspace.manager).opened uri text).completions
            uri place force) := by
  intro first t
  have hstored : ∀ path (events : List DocumentEvent), (first.serve events).workspace.get? path =
      (latest path events).map (Document.ofContent path) :=
    fun path events => first.get?_serve events path rfl
  refine ⟨fun path => hstored path events, fun path => ?_,
    (first.serve_filter_not_asks events).symm, first.manager_serve events,
    fun version settings number root uri place force => ?_⟩
  · rw [hstored, hstored, DocumentEvent.latest_filter_path]
  · exact Prod.ext rfl (completions_eq_fresh (hstored · events) version settings number root uri
      place force)

end Server

end DotCompletion
