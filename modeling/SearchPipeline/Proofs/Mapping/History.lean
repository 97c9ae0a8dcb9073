import Mathlib.Data.List.Induction
import SearchPipeline.Mapping.Session

namespace SearchPipeline.Mapping

section Overlay

variable {source : String}

-- The target of the last mapping for a name.
def lastTarget? (mappings : List FieldMapping) (source : String) : Option String :=
  (mappings.filter (·.source = source)).getLast?.map (·.target)

theorem lastTarget?_append (first second : List FieldMapping) :
    lastTarget? (first ++ second) source =
      (lastTarget? second source).or (lastTarget? first source) := by
  rw [lastTarget?, List.filter_append, List.getLast?_append, Option.map_or]
  rfl

theorem lastTarget?_eq_none_iff {mappings : List FieldMapping} :
    lastTarget? mappings source = none ↔ ∀ mapping ∈ mappings, mapping.source ≠ source := by
  simp [lastTarget?]

-- A table under some mappings has their last targets, and its own names where they have none.
theorem getElem?_overlay (table : NameTable) (mappings : List FieldMapping) (source : String) :
    (overlay table mappings)[source]? = (lastTarget? mappings source).or table[source]? := by
  induction mappings generalizing table with
  | nil => rfl
  | cons first mappings ih =>
      have hfirst : lastTarget? (first :: mappings) source =
          (lastTarget? mappings source).or (lastTarget? [first] source) :=
        lastTarget?_append [first] mappings
      rw [overlay, List.foldl_cons, ← overlay, ih, hfirst, Option.or_assoc,
        Std.TreeMap.getElem?_insert]
      congr 1
      by_cases hsource : first.source = source
      · simp [lastTarget?, hsource]
      · have hother : compare first.source source ≠ .eq :=
          fun hsame => hsource (Std.compare_eq_iff_eq.1 hsame)
        simp [lastTarget?, hsource, hother]

end Overlay

-- What can be asked of a session.
inductive Request where
  | load (mappings : List FieldMapping)
  | loadText (text : String)
  | configure (config : Config)

namespace Request

-- The mappings that a request brings.
def mappings : Request → List FieldMapping
  | load mappings => mappings
  | loadText text => (decodeMappings? text).getD []
  | configure config => config.mappings

def config? : Request → Option Config
  | configure config => some config
  | _ => none

end Request

namespace Session

-- What a session becomes under a request that is accepted.
def accept (session : Session) (request : Request) : Session :=
  { session.load request.mappings with config := request.config?.or session.config }

-- A session that shows what the requests have brought, in their order.
structure Shows (session : Session) (requests : List Request) : Prop where
  table : ∀ source, session.table[source]? =
    lastTarget? (requests.flatMap (·.mappings)) source
  config : session.config = (requests.filterMap (·.config?)).getLast?

theorem Shows.accept {session : Session} {requests : List Request} (h : session.Shows requests)
    (request : Request) : (session.accept request).Shows (requests ++ [request]) where
  table source := by
    rw [Session.accept, load, getElem?_overlay, h.table, List.flatMap_append, lastTarget?_append,
      List.flatMap_singleton]
  config := by
    rw [Session.accept, List.filterMap_append, List.getLast?_append, ← h.config]
    cases hconfig : request.config? <;> simp [hconfig]

end Session

section Runs

variable [Pattern.Engine]

namespace Request

-- The call that a request makes.
def update : Request → Session.Update
  | load mappings => .load mappings
  | loadText text => .loadText text
  | configure config => .configure config

-- Why a request fails, if it does, whatever the session.
def error? : Request → Option ConfigError
  | load _ => none
  | loadText text => if (decodeMappings? text).isNone then some .undecodable else none
  | configure config => if config.isValid then none else some (.invalid config.violations)

def accepted (requests : List Request) : List Request := requests.filter (·.error?.isNone)

end Request

namespace Session

-- A new session behind some requests, made one after the other, whether they fail or not.
def run (requests : List Request) : Session :=
  requests.foldl (fun session request => (request.update.perform session).2) {}

variable {session : Session} {request : Request} {requests : List Request}

-- What one request does: it fails and changes nothing, or it is accepted.
theorem perform_update : request.update.perform session =
    match request.error? with
    | some error => (.error error, session)
    | none => (.ok (), session.accept request) := by
  cases request with
  | load mappings => rfl
  | loadText text =>
      cases hdecode : decodeMappings? text with
      | none =>
          have hload : loadMappings text = .error .undecodable := by simp [loadMappings, hdecode]
          simp only [Request.update, Request.error?, hdecode, Update.loadText, hload]
          rfl
      | some mappings =>
          have hload : loadMappings text = .ok mappings := by simp [loadMappings, hdecode]
          simp only [Request.update, Request.error?, hdecode, Update.loadText, hload, accept,
            Request.mappings]
          rfl
  | configure config =>
      cases hvalid : config.isValid with
      | true =>
          simp only [Request.update, Request.error?, hvalid, Update.configure]
          rfl
      | false =>
          simp only [Request.update, Request.error?, hvalid, Update.configure]
          rfl

theorem run_concat : run (requests ++ [request]) = (request.update.perform (run requests)).2 := by
  rw [run, List.foldl_append]
  rfl

-- A request that is accepted adds to what a session shows, and another one changes nothing.
theorem Shows.perform (h : session.Shows requests) (request : Request) :
    (request.update.perform session).2.Shows (requests ++ Request.accepted [request]) := by
  rw [perform_update]
  cases herror : request.error? with
  | some error => simpa [Request.accepted, herror] using h
  | none => simpa [Request.accepted, herror] using h.accept request

theorem run_shows (requests : List Request) : (run requests).Shows (Request.accepted requests) := by
  induction requests using List.reverseRecOn with
  | nil => exact ⟨fun source => by simp [run, lastTarget?, Request.accepted], rfl⟩
  | append_singleton requests request ih =>
      rw [run_concat, Request.accepted, List.filter_append]
      exact ih.perform request

-- What a context makes of the table: the configuration, if there is one, lies over it.
theorem getElem?_effective (session : Session) (context : Context) (source : String) :
    (session.effective context)[source]? =
      (session.config.bind fun config => lastTarget? (config.evaluate context) source).or
        session.table[source]? := by
  rw [effective]
  cases session.config with
  | none => rfl
  | some config => exact getElem?_overlay _ _ _

-- Whatever is asked of a new session, in whatever order: a request that fails says why and leaves
-- the session as it was, the table has the last target that an accepted request brought for a name,
-- the configuration is the last accepted one, and in every context its mappings lie over the table.
theorem run_history (requests : List Request) :
    (∀ (earlier : List Request) (request : Request),
      request.error? = none ∧ (request.update.perform (run earlier)).1 = .ok () ∨
      ∃ error, request.error? = some error ∧
        request.update.perform (run earlier) = (.error error, run earlier)) ∧
    (∀ source, (run requests).table[source]? =
      lastTarget? ((Request.accepted requests).flatMap (·.mappings)) source) ∧
    (run requests).config = ((Request.accepted requests).filterMap (·.config?)).getLast? ∧
    ∀ context source, ((run requests).effective context)[source]? =
      ((run requests).config.bind fun config => lastTarget? (config.evaluate context) source).or
        (run requests).table[source]? := by
  have hshows := run_shows requests
  refine ⟨fun earlier request => ?_, hshows.table, hshows.config, getElem?_effective (run requests)⟩
  rw [perform_update]
  cases request.error? with
  | none => exact .inl ⟨rfl, rfl⟩
  | some error => exact .inr ⟨error, rfl, rfl⟩

end Session

end Runs

section Prefixes

attribute [local instance] Pattern.Engine.prefixes

-- What a session is asked, where a text is cut off, a configuration has no version, and the pattern
-- of another one is no pattern.
def Request.mixed : List Request :=
  let web : Rule := ⟨"r", "", "", [.sourcetype .regex "^web"], [⟨"a", "x"⟩], 0, true⟩
  [.load [⟨"a", "b"⟩, ⟨"d", "b"⟩],
   .loadText "[\x7b\"source\":\"a\",\"target\":\"lost\"",
   .configure { version := "", mappings := [⟨"d", "lost"⟩] },
   .loadText "[\x7b\"source\":\"a\",\"target\":\"c\"\x7d]",
   .configure { version := "1", mappings := [⟨"d", "e"⟩], rules := [web] },
   .configure { version := "2", rules := [{ web with conditions := [.sourcetype .regex "("] }] },
   .load [⟨"d", "f"⟩]]

theorem Session.run_history_mixed : ∃ context : Context,
    context = (∅ : Context).insert "sourcetype" (.single "web01") ∧
    Request.mixed.map (·.error?.isNone) = [true, false, false, true, true, false, true] ∧
    (∀ request ∈ Request.mixed, request.error?.isSome →
      (request.update.perform (run Request.mixed)).2 = run Request.mixed) ∧
    (run Request.mixed).table["a"]? = some "c" ∧ (run Request.mixed).table["d"]? = some "f" ∧
    (run Request.mixed).config.map (·.version) = some "1" ∧
    ((run Request.mixed).effective context)["a"]? = some "x" ∧
    ((run Request.mixed).effective ∅)["a"]? = some "c" ∧
    ((run Request.mixed).effective ∅)["d"]? = some "e" := by
  obtain ⟨hperform, htable, hconfig, heffective⟩ := run_history Request.mixed
  refine ⟨_, rfl, by decide +kernel, fun request _ hfails => ?_, ?_, ?_, ?_, ?_, ?_, ?_⟩
  · obtain ⟨hnone, -⟩ | ⟨error, -, hkeeps⟩ := hperform Request.mixed request
    · rw [hnone] at hfails
      cases hfails
    · rw [hkeeps]
  · rw [htable]
    decide +kernel
  · rw [htable]
    decide +kernel
  · rw [hconfig]
    decide +kernel
  · rw [heffective, hconfig]
    decide +kernel
  · rw [heffective, hconfig, htable]
    decide +kernel
  · rw [heffective, hconfig]
    decide +kernel

end Prefixes

end SearchPipeline.Mapping
