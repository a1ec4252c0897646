import RalphexRunner.Agent.Heartbeat
import RalphexRunner.Agent.Titles
import RalphexRunner.Ipc.Codec
import RalphexRunner.Plan.Parse

/-!
# The bodies of the farm protocol

What the runner sends the farm and what the farm answers, as JSON.  A slice may be null, a title
that is not there is left out, and of a job everything but the run id may be left out: it is read
as its zero value.
-/

namespace RalphexRunner

open Json (Codec Record Value under)

/-- The runs a native runner takes at a time. -/
def slots : Fin (2 ^ 32) := 1

/-- A repository a container runner serves. -/
structure RepoCapability where
  slug : Text
  defaultBranch : Text

/-- What the farm is asked for a job with. -/
structure ClaimRequest where
  runner : Text
  version : Text
  runtime : Text
  repos : Option (List RepoCapability)
  ready : Option (List Text)
  slots : Fin (2 ^ 32)

/-- What a lease is renewed with. -/
structure HeartbeatRequest where
  runner : Text
  image : Text
  version : Text
  runtime : Text
  repos : Option (List RepoCapability)
  slots : Fin (2 ^ 32)

/-- A task of the plan as the dashboard shows it. -/
structure ProgressTask where
  number : Text
  ord : Fin (2 ^ 32)
  title : Text
  status : TaskStatus
  checkboxes : List Planfile.Checkbox

/-- A snapshot of a run's progress. -/
structure ProgressRequest where
  phase : Phase
  failed : Bool
  tasks : Option (List ProgressTask)

def ClaimRequest.native (runner : Text) : ClaimRequest where
  runner := runner
  version := protocolVersion
  runtime := runtimeName
  repos := some []
  ready := some []
  slots := RalphexRunner.slots

def HeartbeatRequest.native (runner : Text) : HeartbeatRequest where
  runner := runner
  image := []
  version := protocolVersion
  runtime := runtimeName
  repos := some []
  slots := RalphexRunner.slots

namespace Farm

def repoRecord : Record RepoCapability :=
  ((Record.required "slug".toList Codec.text).both
    (Record.required "default_branch".toList Codec.text) (by decide)).map
    (fun (slug, defaultBranch) ↦ ⟨slug, defaultBranch⟩)
    (fun repo ↦ (repo.slug, repo.defaultBranch)) fun _ ↦ rfl

/-- The repositories of a request, which Go may write as null or leave out. -/
def reposRecord : Record (Option (List RepoCapability)) :=
  Record.defaulted "repos".toList ((Codec.list repoRecord.object).option rfl) none

def slotsRecord : Record (Fin (2 ^ 32)) := Record.required "slots".toList (Codec.below _)

def claimRecord : Record ClaimRequest :=
  ((Record.required "runner".toList Codec.text).both
    ((Record.required "version".toList Codec.text).both
      ((Record.required "runtime".toList Codec.text).both
        (reposRecord.both
          ((Record.defaulted "ready".toList ((Codec.list Codec.text).option rfl) none).both
            slotsRecord (by decide)) (by decide)) (by decide)) (by decide)) (by decide)).map
    (fun (runner, version, runtime, repos, ready, slots) ↦
      ⟨runner, version, runtime, repos, ready, slots⟩)
    (fun request ↦ (request.runner, request.version, request.runtime, request.repos,
      request.ready, request.slots))
    fun _ ↦ rfl

example : Json.write (claimRecord.object.encode (.native "mbp".toList)) =
    ("\x7b\x22runner\x22:\x22mbp\x22,\x22version\x22:\x221\x22," ++
      "\x22runtime\x22:\x22native\x22,\x22repos\x22:[],\x22ready\x22:[]," ++
      "\x22slots\x22:1\x7d").toList := by
  decide +kernel

def heartbeatRecord : Record HeartbeatRequest :=
  ((Record.required "runner".toList Codec.text).both
    ((Record.required "image".toList Codec.text).both
      ((Record.required "version".toList Codec.text).both
        ((Record.required "runtime".toList Codec.text).both
          (reposRecord.both slotsRecord (by decide)) (by decide)) (by decide))
        (by decide)) (by decide)).map
    (fun (runner, image, version, runtime, repos, slots) ↦
      ⟨runner, image, version, runtime, repos, slots⟩)
    (fun request ↦ (request.runner, request.image, request.version, request.runtime,
      request.repos, request.slots))
    fun _ ↦ rfl

def openRunRecord : Record OpenRunRequest :=
  ((Record.required "runner".toList Codec.text).both
    ((Record.required "version".toList Codec.text).both
      ((Record.required "runtime".toList Codec.text).both
        ((Record.required "repo".toList Codec.text).both
          ((Record.required "ctx".toList Codec.text).both
            ((Record.required "plan".toList Codec.text).both
              ((Record.required "branch".toList Ipc.branchCodec).both
                ((Record.required "create_pr".toList Ipc.createPrCodec).both
                  (Record.omitted "title".toList Codec.text rfl) (by decide)) (by decide))
                (by decide)) (by decide)) (by decide)) (by decide)) (by decide)) (by decide)).map
    (fun (runner, version, runtime, repo, ctx, plan, branch, createPr, title) ↦
      ⟨runner, version, runtime, repo, ctx, plan, branch, createPr, title⟩)
    (fun request ↦ (request.runner, request.version, request.runtime, request.repo, request.ctx,
      request.plan, request.branch, request.createPr, request.title))
    fun _ ↦ rfl

def completeRecord : Record CompleteRequest :=
  ((Record.required "status".toList Ipc.statusCodec).both
    ((Record.required "pr_url".toList Codec.text).both
      ((Record.required "fail_reason".toList Codec.text).both
        ((Record.required "message".toList Codec.text).both
          (Record.required "log_tail".toList Codec.text) (by decide)) (by decide))
        (by decide)) (by decide)).map
    (fun (status, prUrl, failReason, message, logTail) ↦
      ⟨status, prUrl, failReason, message, logTail⟩)
    (fun request ↦ (request.status, request.prUrl, request.failReason, request.message,
      request.logTail))
    fun _ ↦ rfl

def phaseName : Phase → Text
  | .setup => "setup".toList
  | .tasks => "tasks".toList
  | .review => "review".toList
  | .pr => "pr".toList

def phaseCodec : Codec Phase :=
  Codec.named [("setup".toList, .setup), ("tasks".toList, .tasks), ("review".toList, .review),
    ("pr".toList, .pr)] phaseName fun phase ↦ by cases phase <;> rfl

def taskStatusName : TaskStatus → Text
  | .pending => "pending".toList
  | .active => "active".toList
  | .done => "done".toList

def taskStatusCodec : Codec TaskStatus :=
  Codec.named [("pending".toList, .pending), ("active".toList, .active), ("done".toList, .done)]
    taskStatusName fun status ↦ by cases status <;> rfl

def checkboxRecord : Record Planfile.Checkbox :=
  ((Record.required "text".toList Codec.text).both
    (Record.required "checked".toList Codec.bool) (by decide)).map
    (fun (text, checked) ↦ ⟨text, checked⟩) (fun box ↦ (box.text, box.checked)) fun _ ↦ rfl

def taskRecord : Record ProgressTask :=
  ((Record.required "number".toList Codec.text).both
    ((Record.required "ord".toList (Codec.below _)).both
      ((Record.required "title".toList Codec.text).both
        ((Record.required "status".toList taskStatusCodec).both
          (Record.required "checkboxes".toList (Codec.list checkboxRecord.object)) (by decide))
          (by decide)) (by decide)) (by decide)).map
    (fun (number, ord, title, status, checkboxes) ↦ ⟨number, ord, title, status, checkboxes⟩)
    (fun task ↦ (task.number, task.ord, task.title, task.status, task.checkboxes)) fun _ ↦ rfl

def progressRecord : Record ProgressRequest :=
  ((Record.required "phase".toList phaseCodec).both
    ((Record.required "failed".toList Codec.bool).both
      (Record.defaulted "tasks".toList ((Codec.list taskRecord.object).option rfl) none)
      (by decide)) (by decide)).map
    (fun (phase, failed, tasks) ↦ ⟨phase, failed, tasks⟩)
    (fun request ↦ (request.phase, request.failed, request.tasks)) fun _ ↦ rfl

def actionName : HeartbeatAction → Text
  | .none => "none".toList
  | .cancel => "cancel".toList

/-- What the farm answers a heartbeat. -/
def responseRecord : Record HeartbeatAction :=
  Record.required "action".toList
    (Codec.named [("none".toList, .none), ("cancel".toList, .cancel)] actionName fun action ↦ by
      cases action <;> rfl)

/-- A job as the farm sends it, with the members nothing in the runner reads. -/
structure JobBody where
  fields : JobFields
  issueId : Option Text
  repoSlug : Option Text
  leaseTtlSeconds : Option (Fin (2 ^ 64))

def jobRecord : Record JobBody :=
  ((Record.required "run_id".toList Ipc.runIdCodec).both
    ((Record.optional "issue_id".toList Codec.text).both
      ((Record.optional "identifier".toList Codec.text).both
        ((Record.optional "issue_url".toList Codec.text).both
          ((Record.optional "title".toList Codec.text).both
            ((Record.optional "repo_slug".toList Codec.text).both
              ((Record.optional "plan_path".toList Codec.text).both
                ((Record.optional "branch".toList Ipc.branchCodec).both
                  ((Record.optional "mode".toList Codec.text).both
                    ((Record.optional "lease_ttl_seconds".toList (Codec.below _)).both
                      ((Record.optional "runtime".toList Codec.text).both
                        ((Record.optional "ctx".toList Codec.text).both
                          (Record.optional "create_pr".toList Ipc.createPrCodec)
                          (by decide)) (by decide)) (by decide)) (by decide)) (by decide))
                  (by decide)) (by decide)) (by decide)) (by decide)) (by decide)) (by decide))
    (by decide)).map
    (fun (runId, issueId, identifier, issueUrl, title, repoSlug, planPath, branch, mode,
        leaseTtlSeconds, runtime, ctx, createPr) ↦
      ⟨⟨runId, identifier, issueUrl, title, planPath, branch, mode, runtime, ctx, createPr⟩,
        issueId, repoSlug, leaseTtlSeconds⟩)
    (fun body ↦ (body.fields.runId, body.issueId, body.fields.identifier, body.fields.issueUrl,
      body.fields.title, body.repoSlug, body.fields.planPath, body.fields.branch,
      body.fields.mode, body.leaseTtlSeconds, body.fields.runtime, body.fields.ctx,
      body.fields.createPr))
    fun _ ↦ rfl

def readJob (bytes : List UInt8) : Option Job :=
  (jobRecord.object.read bytes).map fun body ↦ body.fields.decode

/-- The members of an object are a job: the run id is there, and every other member that is there
has its type.  A member that is not there is the zero value of its type. -/
structure IsJob (fields : List (Text × Value)) (job : Job) : Prop where
  runId : under "run_id".toList fields = [.string job.runId.value]
  identifier : Record.Gives "identifier".toList Codec.text [] fields job.identifier
  issueUrl : Record.Gives "issue_url".toList Codec.text [] fields job.issueUrl
  title : Record.Gives "title".toList Codec.text [] fields job.title
  planPath : Record.Gives "plan_path".toList Codec.text [] fields job.planPath
  branch : Record.Gives "branch".toList Ipc.branchCodec ⟨[]⟩ fields job.branch
  mode : Record.Gives "mode".toList Codec.text [] fields job.mode
  runtime : Record.Gives "runtime".toList Codec.text [] fields job.runtime
  ctx : Record.Gives "ctx".toList Codec.text [] fields job.ctx
  createPr : Record.Gives "create_pr".toList Ipc.createPrCodec .no fields job.createPr
  issueId : ∃ issueId, Record.Gives "issue_id".toList Codec.text [] fields issueId
  repoSlug : ∃ repoSlug, Record.Gives "repo_slug".toList Codec.text [] fields repoSlug
  leaseTtlSeconds : ∃ seconds,
    Record.Gives "lease_ttl_seconds".toList (Codec.below (2 ^ 64)) 0 fields seconds

variable {fields : List (Text × Value)} {job : Job} {bytes : List UInt8}

theorem runIdCodec_decode {value : Value} {runId : RunId} :
    Ipc.runIdCodec.decode value = some runId ↔ value = .string runId.value := by
  cases value with
  | string text =>
      change some (RunId.mk text) = some runId ↔ _
      rw [Option.some.injEq, Value.string.injEq]
      exact ⟨fun h ↦ by rw [← h], fun h ↦ by rw [h]⟩
  | _ => exact ⟨nofun, nofun⟩

/-- The members of a job are read as it says. -/
theorem jobRecord_decode :
    (∃ body, jobRecord.decode fields = some body ∧ body.fields.decode = job) ↔
      IsJob fields job := by
  unfold jobRecord
  constructor
  · rintro ⟨body, hbody, hjob⟩
    obtain ⟨given, hgiven, rfl⟩ := Record.map_decode.mp hbody
    simp only [Record.both_decode] at hgiven
    obtain ⟨hrunId, hissueId, hidentifier, hissueUrl, htitle, hrepoSlug, hplanPath, hbranch, hmode,
      hseconds, hruntime, hctx, hcreatePr⟩ := hgiven
    obtain ⟨one, hone, hvalue⟩ := Record.required_decode.mp hrunId
    subst hjob
    exact {
      runId := by rw [hone, runIdCodec_decode.mp hvalue]; rfl
      identifier := Record.optional_gives.mp ⟨_, hidentifier, rfl⟩
      issueUrl := Record.optional_gives.mp ⟨_, hissueUrl, rfl⟩
      title := Record.optional_gives.mp ⟨_, htitle, rfl⟩
      planPath := Record.optional_gives.mp ⟨_, hplanPath, rfl⟩
      branch := Record.optional_gives.mp ⟨_, hbranch, rfl⟩
      mode := Record.optional_gives.mp ⟨_, hmode, rfl⟩
      runtime := Record.optional_gives.mp ⟨_, hruntime, rfl⟩
      ctx := Record.optional_gives.mp ⟨_, hctx, rfl⟩
      createPr := Record.optional_gives.mp ⟨_, hcreatePr, rfl⟩
      issueId := ⟨_, Record.optional_gives.mp ⟨_, hissueId, rfl⟩⟩
      repoSlug := ⟨_, Record.optional_gives.mp ⟨_, hrepoSlug, rfl⟩⟩
      leaseTtlSeconds := ⟨_, Record.optional_gives.mp ⟨_, hseconds, rfl⟩⟩ }
  · intro h
    obtain ⟨issueId, hissueId⟩ := h.issueId
    obtain ⟨repoSlug, hrepoSlug⟩ := h.repoSlug
    obtain ⟨seconds, hseconds⟩ := h.leaseTtlSeconds
    obtain ⟨issueId, hissueId, -⟩ := Record.optional_gives.mpr hissueId
    obtain ⟨repoSlug, hrepoSlug, -⟩ := Record.optional_gives.mpr hrepoSlug
    obtain ⟨seconds, hseconds, -⟩ := Record.optional_gives.mpr hseconds
    obtain ⟨identifier, hidentifier, hsame₁⟩ := Record.optional_gives.mpr h.identifier
    obtain ⟨issueUrl, hissueUrl, hsame₂⟩ := Record.optional_gives.mpr h.issueUrl
    obtain ⟨title, htitle, hsame₃⟩ := Record.optional_gives.mpr h.title
    obtain ⟨planPath, hplanPath, hsame₄⟩ := Record.optional_gives.mpr h.planPath
    obtain ⟨branch, hbranch, hsame₅⟩ := Record.optional_gives.mpr h.branch
    obtain ⟨mode, hmode, hsame₆⟩ := Record.optional_gives.mpr h.mode
    obtain ⟨runtime, hruntime, hsame₇⟩ := Record.optional_gives.mpr h.runtime
    obtain ⟨ctx, hctx, hsame₈⟩ := Record.optional_gives.mpr h.ctx
    obtain ⟨createPr, hcreatePr, hsame₉⟩ := Record.optional_gives.mpr h.createPr
    have hrunId : (Record.required "run_id".toList Ipc.runIdCodec).decode fields =
        some job.runId :=
      Record.required_decode.mpr ⟨_, h.runId, runIdCodec_decode.mpr rfl⟩
    refine ⟨_, Record.map_decode.mpr ⟨(job.runId, issueId, identifier, issueUrl, title, repoSlug,
      planPath, branch, mode, seconds, runtime, ctx, createPr), ?_, rfl⟩, ?_⟩
    · simp only [Record.both_decode]
      exact ⟨hrunId, hissueId, hidentifier, hissueUrl, htitle, hrepoSlug, hplanPath, hbranch, hmode,
        hseconds, hruntime, hctx, hcreatePr⟩
    · change Job.mk _ _ _ _ _ _ _ _ _ _ = job
      rw [hsame₁, hsame₂, hsame₃, hsame₄, hsame₅, hsame₆, hsame₇, hsame₈, hsame₉]

/-- Bytes are a job exactly as its members say. -/
theorem readJob_iff : readJob bytes = some job ↔
    ∃ value fields, Json.readBytes bytes = some value ∧
      value.fields? jobRecord.names = some fields ∧ IsJob fields job := by
  constructor
  · intro h
    obtain ⟨body, hbody, hjob⟩ := Option.map_eq_some_iff.mp h
    obtain ⟨value, hvalue, hdecode⟩ := Option.bind_eq_some_iff.mp hbody
    obtain ⟨fields, hfields, hrecord⟩ := Option.bind_eq_some_iff.mp hdecode
    exact ⟨value, fields, hvalue, hfields, jobRecord_decode.mp ⟨body, hrecord, hjob⟩⟩
  · rintro ⟨value, fields, hvalue, hfields, hisJob⟩
    obtain ⟨body, hrecord, hjob⟩ := jobRecord_decode.mpr hisJob
    apply Option.map_eq_some_iff.mpr
    refine ⟨body, ?_, hjob⟩
    rw [Codec.read, hvalue, Option.bind_some]
    exact Option.bind_eq_some_iff.mpr ⟨fields, hfields, hrecord⟩

example : readJob (Utf8.encode ("\x7b\x22ctx\x22: \x22/c\x22, \x22run_id\x22: \x22r\x22, " ++
      "\x22zz\x22: \x22\\ud83d\x22\x7d").toList) =
    some ⟨⟨"r".toList⟩, [], [], [], [], ⟨[]⟩, [], [], "/c".toList, .no⟩ := by
  decide +kernel

/-- What is written is read back, and is read as well from an object that holds it in another order
and among members that are not known. -/
def Survives {α : Type} (record : Record α) : Prop :=
  (∀ value, record.object.read (record.object.bytes value) = some value) ∧
    ∀ value more fields bytes, (∀ field ∈ more, field.1 ∉ record.names) →
      (record.encode value ++ more).Perm fields → Json.readBytes bytes = some (.object fields) →
        record.object.read bytes = some value

theorem survives {α : Type} (record : Record α) : Survives record := by
  refine ⟨record.object.read_bytes, fun value more fields bytes hmore hperm hbytes ↦ ?_⟩
  rw [Codec.read, hbytes, Option.bind_some]
  exact record.decode_of_perm hmore hperm

/-- **Every body of the farm protocol is read as what was written**, whatever the order of its
members and whatever else stands among them.  Of a job, any members but the run id may be missing;
and bytes are a job only if the run id is there once and every other member that is there has its
type, the missing ones being read as zero values. -/
theorem bodies_survive :
    Survives claimRecord ∧ Survives heartbeatRecord ∧ Survives openRunRecord ∧
    Survives completeRecord ∧ Survives progressRecord ∧ Survives responseRecord ∧
    Survives jobRecord ∧
    ∀ bytes job, readJob bytes = some job ↔
      ∃ value fields, Json.readBytes bytes = some value ∧
        value.fields? jobRecord.names = some fields ∧ IsJob fields job := by
  exact ⟨survives _, survives _, survives _, survives _, survives _, survives _, survives _,
    fun bytes job ↦ readJob_iff⟩

end Farm

end RalphexRunner
