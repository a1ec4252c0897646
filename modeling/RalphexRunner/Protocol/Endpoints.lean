import RalphexRunner.Protocol.Types
import RalphexRunner.Text.Search
import RalphexRunner.Text.Url

/-!
# The endpoints of the farm

`FarmClient` writes the address of a call as text and puts the run id into it as one segment of the
path, escaped byte by byte.  The http library reads that text as any other address before it sends
the request: segments of dots are gone from the path by then.

An escaped id is a segment of dots exactly where the id itself is one, so it is for those two ids
alone that the request leaves the run's own endpoint.
-/

namespace RalphexRunner

/-- The client, as far as the addresses of its requests go. -/
structure FarmClient where
  farmUrl : Text

/-- Letters, digits, `-`, `.`, `_` and `~`. -/
def isUnreserved (byte : UInt8) : Bool :=
  (0x30 ≤ byte ∧ byte ≤ 0x39) ∨ (0x41 ≤ byte ∧ byte ≤ 0x5A) ∨ (0x61 ≤ byte ∧ byte ≤ 0x7A) ∨
    byte = 0x2D ∨ byte = 0x2E ∨ byte = 0x5F ∨ byte = 0x7E

def encodeSegment (value : Text) : Text := Percent.encode isUnreserved (Utf8.encode value)

/-- The calls that name a run in their path. -/
inductive JobCall where
  | log (seq : Seq)
  | heartbeat
  | complete
  | progress

namespace FarmClient

def new (farmUrl : Text) : FarmClient := ⟨farmUrl.rdropWhile (· = '/')⟩

def endpoint (client : FarmClient) (path : Text) : Text := client.farmUrl ++ '/' :: path

/-- The address of a call that names a run. -/
def jobEndpoint (client : FarmClient) (runId : RunId) (call : Text) : Text :=
  client.endpoint ("api/runner/jobs/".toList ++ (encodeSegment runId.value ++ '/' :: call))

/-- The address `append_log` posts to. -/
def appendLogUrl (client : FarmClient) (runId : RunId) (seq : Seq) : Text :=
  client.jobEndpoint runId ("log?seq=".toList ++ numeral seq.value)

def heartbeatUrl (client : FarmClient) (runId : RunId) : Text :=
  client.jobEndpoint runId "heartbeat".toList

def completeUrl (client : FarmClient) (runId : RunId) : Text :=
  client.jobEndpoint runId "complete".toList

def postProgressUrl (client : FarmClient) (runId : RunId) : Text :=
  client.jobEndpoint runId "progress".toList

/-- The address a call about a run is made to. -/
def url (client : FarmClient) (runId : RunId) : JobCall → Text
  | .log seq => client.appendLogUrl runId seq
  | .heartbeat => client.heartbeatUrl runId
  | .complete => client.completeUrl runId
  | .progress => client.postProgressUrl runId

/-- The farm's own address, where it has a path for others to follow: the directory of every
endpoint. -/
def base (client : FarmClient) : Option Url :=
  (Url.parse (client.endpoint [])).bind fun url ↦
    if url.query = none ∧ url.fragment = none then some { url with path := url.path.dropLast }
    else none

end FarmClient

/-- The segment of the path that names the call. -/
def JobCall.verb : JobCall → Text
  | .log _ => "log".toList
  | .heartbeat => "heartbeat".toList
  | .complete => "complete".toList
  | .progress => "progress".toList

/-- What the address of the call carries behind its path. -/
def JobCall.query : JobCall → Option Text
  | .log seq => some ("seq=".toList ++ numeral seq.value)
  | .heartbeat | .complete | .progress => none

/-- The ids that are segments of dots. -/
def dotIds : List Text := [".".toList, "..".toList]

example : encodeSegment "local-1/../x".toList = "local-1%2F..%2Fx".toList := by decide

theorem faithful_isUnreserved : Percent.Faithful isUnreserved := by
  intro byte hkept
  have hall : ∀ code : Fin 256, isUnreserved (UInt8.ofNat code) = true →
      code.val < 0x80 ∧ code.val ≠ 0x25 := by decide +kernel
  have hbyte := hall ⟨byte.toNat, byte.toNat_lt⟩
  rw [UInt8.ofNat_toNat] at hbyte
  exact hbyte hkept

theorem decode_encodeSegment (value : Text) :
    Percent.decode (encodeSegment value) = Utf8.encode value :=
  Percent.decode_encode faithful_isUnreserved (Utf8.encode value)

theorem isPlain_of_isUnreserved {byte : UInt8} (h : isUnreserved byte = true) :
    Url.isPlain (Char.ofNat byte.toNat) = true := by
  have hall : ∀ code : Fin 256, isUnreserved (UInt8.ofNat code) = true →
      Url.isPlain (Char.ofNat code) = true := by decide +kernel
  have hbyte := hall ⟨byte.toNat, byte.toNat_lt⟩
  rw [UInt8.ofNat_toNat] at hbyte
  exact hbyte h

theorem isPlain_encodeSegment (value : Text) :
    ∀ character ∈ encodeSegment value, Url.isPlain character = true := by
  intro character hmem
  rcases Percent.mem_encode hmem with rfl | ⟨digit, hdigit, rfl⟩ | ⟨byte, hkept, rfl⟩
  · decide
  · have hall : ∀ digit : Fin 16, Url.isPlain (Percent.hexDigit digit) = true := by decide
    exact hall ⟨digit, hdigit⟩
  · exact isPlain_of_isUnreserved hkept

theorem encode_injective {first second : Text} (h : Utf8.encode first = Utf8.encode second) :
    first = second := by
  rw [← Utf8.lossy_encode first, h, Utf8.lossy_encode]

theorem encodeSegment_mem_singleDots {value : Text} :
    encodeSegment value ∈ Url.singleDots ↔ value = ".".toList := by
  constructor
  · intro h
    exact encode_injective ((decode_encodeSegment value).symm.trans (Url.decode_singleDots h))
  · rintro rfl
    decide

theorem encodeSegment_mem_doubleDots {value : Text} :
    encodeSegment value ∈ Url.doubleDots ↔ value = "..".toList := by
  constructor
  · intro h
    exact encode_injective ((decode_encodeSegment value).symm.trans (Url.decode_doubleDots h))
  · rintro rfl
    decide

/-! ## The address that is requested -/

namespace JobCall

/-- What follows the path in the address of a call, as it is written. -/
def tail : JobCall → Text
  | .log seq => "?seq=".toList ++ numeral seq.value
  | .heartbeat | .complete | .progress => []

theorem verb_mem (call : JobCall) :
    call.verb ∈ ["log".toList, "heartbeat".toList, "complete".toList, "progress".toList] := by
  cases call with
  | log seq => exact List.mem_cons_self
  | heartbeat => exact List.mem_cons_of_mem _ List.mem_cons_self
  | complete => exact List.mem_cons_of_mem _ (List.mem_cons_of_mem _ List.mem_cons_self)
  | progress =>
      exact List.mem_cons_of_mem _ (List.mem_cons_of_mem _ (List.mem_cons_of_mem _
        List.mem_cons_self))

theorem isPlain_verb (call : JobCall) :
    ∀ character ∈ call.verb, Url.isPlain character = true := by
  have hall : ∀ verb ∈ ["log".toList, "heartbeat".toList, "complete".toList, "progress".toList],
      verb.all Url.isPlain = true := by decide
  exact List.all_eq_true.mp (hall call.verb call.verb_mem)

theorem verb_notMem_dots (call : JobCall) :
    call.verb ∉ Url.doubleDots ∧ call.verb ∉ Url.singleDots := by
  have hall : ∀ verb ∈ ["log".toList, "heartbeat".toList, "complete".toList, "progress".toList],
      verb ∉ Url.doubleDots ∧ verb ∉ Url.singleDots := by decide
  exact hall call.verb call.verb_mem

theorem tail_head (call : JobCall) :
    ∀ character ∈ call.tail.head?, Url.isMark character = true := by
  intro character hhead
  cases call with
  | log seq =>
      rw [← Option.some.inj hhead]
      decide
  | heartbeat | complete | progress => exact absurd hhead (Option.some_ne_none character).symm

/-- Nothing of a sequence number is escaped. -/
theorem plain_seq (seq : Seq) : ∀ character ∈ "seq=".toList ++ numeral seq.value,
    0x20 < character.toNat ∧ character.toNat ≤ 0x7E ∧ character ∉ Url.queryEscapes := by
  intro character hmem
  rcases List.mem_append.mp hmem with hkey | hvalue
  · have hall : ("seq=".toList.all fun letter ↦
        0x20 < letter.toNat ∧ letter.toNat ≤ 0x7E ∧ letter ∉ Url.queryEscapes) = true := by decide
    exact of_decide_eq_true (List.all_eq_true.mp hall character hkey)
  · have hnone : Url.queryEscapes.any isDigit = false := by decide
    rw [numeral_eq] at hvalue
    have hdigit := isDigit_of_mem_toDigits hvalue
    obtain ⟨hlow, hhigh⟩ := toNat_of_isDigit hdigit
    refine ⟨by omega, by omega, fun hin ↦ ?_⟩
    exact List.any_eq_false.mp hnone character hin hdigit

theorem isBlank_tail (call : JobCall) :
    ∀ character ∈ call.tail, Url.isBlank character = false := by
  intro character hmem
  cases call with
  | log seq =>
      rcases List.mem_cons.mp hmem with rfl | hin
      · decide
      · exact decide_eq_false (Nat.not_le.mpr (plain_seq seq character hin).1)
  | heartbeat | complete | progress => exact absurd hmem List.not_mem_nil

/-- The tail is read as the query of the call and nothing else. -/
theorem tail_read (call : JobCall) :
    Url.queryOf call.tail = call.query ∧ Url.fragmentOf call.tail = none := by
  cases call with
  | log seq =>
      have hhash : ∀ character ∈ "seq=".toList ++ numeral seq.value, character ≠ '#' := by
        rintro character hmem rfl
        exact (plain_seq seq _ hmem).2.2 (by decide)
      constructor
      · have hwhole : ("seq=".toList ++ numeral seq.value).takeWhile (· ≠ '#') =
            "seq=".toList ++ numeral seq.value :=
          List.takeWhile_eq_self_iff.mpr fun character hmem ↦
            decide_eq_true (hhash character hmem)
        rw [Url.queryOf, if_pos (by rfl)]
        change some (Url.escaped Url.queryEscapes
          (("seq=".toList ++ numeral seq.value).takeWhile (· ≠ '#'))) = _
        rw [hwhole, Url.escaped_eq_self fun character hmem ↦
          have hplain := plain_seq seq character hmem
          ⟨Nat.lt_of_succ_lt hplain.1, hplain.2⟩]
        rfl
      · refine if_neg fun hmem ↦ ?_
        rcases List.mem_cons.mp hmem with heq | hin
        · exact absurd heq (by decide)
        · exact hhash _ hin rfl
  | heartbeat | complete | progress => exact ⟨rfl, rfl⟩

end JobCall

namespace FarmClient

variable {client : FarmClient} {base : Url}

/-- The address of a call, with its run id in the middle. -/
theorem url_eq (client : FarmClient) (runId : RunId) (call : JobCall) :
    client.url runId call = client.endpoint
      (("api/runner/jobs".toList ++ '/' :: (encodeSegment runId.value ++ '/' :: call.verb)) ++
        call.tail) := by
  have hjobs : "api/runner/jobs/".toList = "api/runner/jobs".toList ++ ['/'] := by decide
  have hlog : "log?seq=".toList = "log".toList ++ "?seq=".toList := by decide
  have hassoc (first segment verb tail : Text) :
      (first ++ ['/']) ++ (segment ++ '/' :: (verb ++ tail)) =
        (first ++ '/' :: (segment ++ '/' :: verb)) ++ tail := by simp
  cases call with
  | log seq =>
      rw [url, appendLogUrl, jobEndpoint, hjobs, hlog, List.append_assoc "log".toList, hassoc]
      rfl
  | heartbeat =>
      rw [url, heartbeatUrl, jobEndpoint, hjobs, ← List.append_nil "heartbeat".toList, hassoc]
      rfl
  | complete =>
      rw [url, completeUrl, jobEndpoint, hjobs, ← List.append_nil "complete".toList, hassoc]
      rfl
  | progress =>
      rw [url, postProgressUrl, jobEndpoint, hjobs, ← List.append_nil "progress".toList, hassoc]
      rfl

theorem base_eq_some (h : client.base = some base) :
    ∃ root, Url.parse (client.endpoint []) = some root ∧ root.query = none ∧
      root.fragment = none ∧ base = { root with path := root.path.dropLast } := by
  obtain ⟨root, hroot, hbase⟩ := Option.bind_eq_some_iff.mp h
  split at hbase
  · rename_i hbare
    exact ⟨root, hroot, hbare.1, hbare.2, (Option.some.inj hbase).symm⟩
  · exact absurd hbase (Option.some_ne_none base).symm

/-- The segments the path of a call is written as. -/
def segments (runId : RunId) (call : JobCall) : List Text :=
  ["api".toList, "runner".toList, "jobs".toList, encodeSegment runId.value, call.verb]

theorem splitOnP_segments (runId : RunId) (call : JobCall) :
    (("api/runner/jobs".toList ++ '/' :: (encodeSegment runId.value ++ '/' :: call.verb)).splitOnP
      Url.isSlash).map (Url.escaped Url.pathEscapes) = segments runId call := by
  have hslash : Url.isSlash '/' = true := by decide
  have hfixed : ("api/runner/jobs".toList.splitOnP Url.isSlash).map (Url.escaped Url.pathEscapes) =
      ["api".toList, "runner".toList, "jobs".toList] := by decide
  have hsegment := isPlain_encodeSegment runId.value
  rw [List.splitOnP_append_cons _ _ hslash, List.splitOnP_append_cons _ _ hslash,
    Url.splitOnP_plain hsegment, Url.splitOnP_plain call.isPlain_verb, List.map_append, hfixed,
    List.map_append, List.map_singleton, List.map_singleton, Url.escaped_plain hsegment,
    Url.escaped_plain call.isPlain_verb]
  rfl

/-- The address a call is made to: the farm's own, and the path its segments lead to. -/
theorem requested (hbase : client.base = some base) (runId : RunId) (call : JobCall) :
    Url.parse (client.url runId call) = some { base with
      path := (segments runId call).foldl Url.enter base.path
      query := call.query } := by
  obtain ⟨root, hroot, hquery, hfragment, rfl⟩ := base_eq_some hbase
  have hsegment := isPlain_encodeSegment runId.value
  have hplain : ∀ character ∈
      "api/runner/jobs".toList ++ '/' :: (encodeSegment runId.value ++ '/' :: call.verb),
      Url.isBlank character = false ∧ Url.isMark character = false := by
    have hfixed : ("api/runner/jobs".toList.all fun character ↦
        Url.isBlank character = false ∧ Url.isMark character = false) = true := by decide
    have hslash : Url.isBlank '/' = false ∧ Url.isMark '/' = false := by decide
    intro character hmem
    simp only [List.mem_append, List.mem_cons] at hmem
    rcases hmem with hin | rfl | hin | rfl | hin
    · exact of_decide_eq_true (List.all_eq_true.mp hfixed character hin)
    · exact hslash
    · exact ⟨Url.isBlank_of_isPlain (hsegment character hin),
        Url.isMark_of_isPlain (hsegment character hin)⟩
    · exact hslash
    · exact ⟨Url.isBlank_of_isPlain (call.isPlain_verb character hin),
        Url.isMark_of_isPlain (call.isPlain_verb character hin)⟩
  have hclosing : Url.closing (segments runId call) = [] := by
    obtain ⟨hdouble, hsingle⟩ := call.verb_notMem_dots
    refine if_neg ?_
    change ¬decide (call.verb ∈ Url.doubleDots ∨ call.verb ∈ Url.singleDots) = true
    rw [decide_eq_true_iff]
    exact not_or.mpr ⟨hdouble, hsingle⟩
  have hread := Url.parse_below hroot hquery hfragment _ call.tail
    (fun character hmem ↦ (List.mem_append.mp hmem).elim (fun hin ↦ (hplain character hin).1)
      (call.isBlank_tail character))
    (fun character hmem ↦ (hplain character hmem).2) call.tail_head
  rw [splitOnP_segments, hclosing, List.append_nil, call.tail_read.1, call.tail_read.2,
    ← hfragment] at hread
  rw [url_eq]
  exact hread

/-- All segments of a call but its run id stay where they are written. -/
theorem enter_fixed (path : List Text) (runId : RunId) (call : JobCall) :
    (segments runId call).foldl Url.enter path =
      Url.enter (path ++ ["api".toList, "runner".toList, "jobs".toList])
        (encodeSegment runId.value) ++ [call.verb] := by
  have hfixed : ∀ segment ∈ ["api".toList, "runner".toList, "jobs".toList],
      segment ∉ Url.doubleDots ∧ segment ∉ Url.singleDots := by decide
  have hapi := hfixed "api".toList List.mem_cons_self
  have hrunner := hfixed "runner".toList (List.mem_cons_of_mem _ List.mem_cons_self)
  have hjobs := hfixed "jobs".toList
    (List.mem_cons_of_mem _ (List.mem_cons_of_mem _ List.mem_cons_self))
  simp only [segments, List.foldl_cons, List.foldl_nil]
  rw [Url.enter_segment call.verb_notMem_dots.1 call.verb_notMem_dots.2,
    Url.enter_segment hapi.1 hapi.2, Url.enter_segment hrunner.1 hrunner.2,
    Url.enter_segment hjobs.1 hjobs.2, List.append_assoc, List.append_assoc]
  rfl

theorem foldl_segments {runId : RunId} (h : runId.value ∉ dotIds) (path : List Text)
    (call : JobCall) :
    (segments runId call).foldl Url.enter path = path ++ segments runId call := by
  have hsingle : encodeSegment runId.value ∉ Url.singleDots := fun hmem ↦ h <| by
    rw [encodeSegment_mem_singleDots.mp hmem]
    exact List.mem_cons_self
  have hdouble : encodeSegment runId.value ∉ Url.doubleDots := fun hmem ↦ h <| by
    rw [encodeSegment_mem_doubleDots.mp hmem]
    exact List.mem_cons_of_mem _ List.mem_cons_self
  rw [enter_fixed, Url.enter_segment hdouble hsingle, List.append_assoc, List.append_assoc]
  rfl

/-- An id of dots takes a segment or two off the path instead of adding one. -/
theorem length_foldl_segments {runId : RunId} (h : runId.value ∈ dotIds) (path : List Text)
    (call : JobCall) : ((segments runId call).foldl Url.enter path).length =
      if runId.value = ".".toList then path.length + 4 else path.length + 3 := by
  rw [enter_fixed, Url.enter]
  rcases List.mem_cons.mp h with hsingle | hrest
  · rw [if_neg fun hmem ↦ absurd (hsingle ▸ encodeSegment_mem_doubleDots.mp hmem) (by decide),
      if_pos (encodeSegment_mem_singleDots.mpr hsingle), if_pos hsingle]
    simp
  · have hdouble := List.mem_singleton.mp hrest
    rw [if_pos (encodeSegment_mem_doubleDots.mpr hdouble), if_neg (by rw [hdouble]; decide)]
    simp

/-- A call about a run is made to the farm's own address, under the path of the run, whose segment
stands for its id. -/
def Addresses (client : FarmClient) (base : Url) (runId : RunId) (call : JobCall) : Prop :=
  ∃ segment, Percent.decode segment = Utf8.encode runId.value ∧
    Url.parse (client.url runId call) = some { base with
      path := base.path ++ ["api".toList, "runner".toList, "jobs".toList, segment, call.verb]
      query := call.query }

theorem addresses_iff (hbase : client.base = some base) (runId : RunId) (call : JobCall) :
    client.Addresses base runId call ↔ runId.value ∉ dotIds := by
  constructor
  · rintro ⟨segment, -, hlands⟩ hdots
    rw [requested hbase] at hlands
    have hpath := congrArg (fun url ↦ url.path.length) (Option.some.inj hlands)
    simp only [length_foldl_segments hdots, List.length_append, List.length_cons,
      List.length_nil] at hpath
    split at hpath <;> omega
  · intro hdots
    exact ⟨encodeSegment runId.value, decode_encodeSegment runId.value,
      by rw [requested hbase, foldl_segments hdots]; rfl⟩

/-- What is requested tells which run it is about. -/
theorem requested_injective (hbase : client.base = some base) {runId other : RunId}
    {call further : JobCall}
    (h : Url.parse (client.url runId call) = Url.parse (client.url other further)) :
    runId = other := by
  rw [requested hbase, requested hbase] at h
  have hpath : (segments runId call).foldl Url.enter base.path =
      (segments other further).foldl Url.enter base.path :=
    congrArg (·.path) (Option.some.inj h)
  have hlength := congrArg List.length hpath
  have hdots {id : RunId} (hmem : id.value ∈ dotIds) (hother : id.value ≠ ".".toList) :
      id.value = "..".toList :=
    List.mem_singleton.mp ((List.mem_cons.mp hmem).resolve_left hother)
  have hwhole (id : RunId) (call : JobCall) : (segments id call).length = 5 := rfl
  by_cases hid : runId.value ∈ dotIds
  · rw [length_foldl_segments hid] at hlength
    by_cases hotherId : other.value ∈ dotIds
    · rw [length_foldl_segments hotherId] at hlength
      split at hlength <;> split at hlength
      · rename_i hone hanother
        exact congrArg RunId.mk (hone.trans hanother.symm)
      · omega
      · omega
      · rename_i hone hanother
        exact congrArg RunId.mk ((hdots hid hone).trans (hdots hotherId hanother).symm)
    · rw [foldl_segments hotherId, List.length_append, hwhole] at hlength
      split at hlength <;> omega
  · rw [foldl_segments hid] at hpath hlength
    rw [List.length_append, hwhole] at hlength
    by_cases hotherId : other.value ∈ dotIds
    · rw [length_foldl_segments hotherId] at hlength
      split at hlength <;> omega
    · rw [foldl_segments hotherId, List.append_cancel_left_eq] at hpath
      have hsegment : encodeSegment runId.value = encodeSegment other.value :=
        congrArg (fun segments : List Text ↦ segments.getD 3 []) hpath
      refine congrArg RunId.mk (encode_injective ?_)
      rw [← decode_encodeSegment, hsegment, decode_encodeSegment]

/-- Run ids other than `.` and `..` address only their own endpoints, and no two ids share one. -/
theorem run_ids_keep_to_their_endpoints (hbase : client.base = some base) :
    (∀ runId call, client.Addresses base runId call ↔ runId.value ∉ dotIds) ∧
      ∀ runId other call further,
        Url.parse (client.url runId call) = Url.parse (client.url other further) →
          runId = other :=
  ⟨addresses_iff hbase, fun _ _ _ _ ↦ requested_injective hbase⟩

/-- The farm the client is set up with in the daemon's own tests. -/
def exampleFarm : Text := "http://farm.example:7077/".toList

theorem run_ids_keep_to_their_endpoints_example :
    ∃ base, (new exampleFarm).base = some base ∧ base.path = [] ∧
      ((∀ runId call, (new exampleFarm).Addresses base runId call ↔ runId.value ∉ dotIds) ∧
        ∀ runId other call further,
          Url.parse ((new exampleFarm).url runId call) =
            Url.parse ((new exampleFarm).url other further) → runId = other) :=
  ⟨⟨"http".toList, "farm.example:7077".toList, [], none, none⟩, by decide, rfl,
    run_ids_keep_to_their_endpoints (by decide)⟩

/-- The completion of a run named `..` is posted to no run at all. -/
theorem dots_leave_the_run :
    Url.parse ((new exampleFarm).url ⟨"..".toList⟩ .complete) =
        some ⟨"http".toList, "farm.example:7077".toList,
          ["api".toList, "runner".toList, "complete".toList], none, none⟩ ∧
      ¬∃ segment, Percent.decode segment = Utf8.encode "..".toList ∧
        Url.parse ((new exampleFarm).url ⟨"..".toList⟩ .complete) =
          some ⟨"http".toList, "farm.example:7077".toList,
            ["api".toList, "runner".toList, "jobs".toList, segment, "complete".toList], none,
            none⟩ := by
  have hparse : Url.parse ((new exampleFarm).url ⟨"..".toList⟩ .complete) =
      some ⟨"http".toList, "farm.example:7077".toList,
        ["api".toList, "runner".toList, "complete".toList], none, none⟩ := by decide
  refine ⟨hparse, ?_⟩
  rintro ⟨segment, -, hlands⟩
  rw [hparse] at hlands
  have hlength := congrArg (fun url ↦ url.path.length) (Option.some.inj hlands)
  exact absurd hlength (by simp)

end FarmClient

end RalphexRunner
