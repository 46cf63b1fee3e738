/-
# The URLs of the client

`uris` reads off the actions of a call what is handed to `ghttp_set_uri`: the buffer, the
text that was written into it, and the receiver of the request.

* `sent_whole_iff` : the buffers hold the whole texts exactly when these are shorter than
  `MAX_URL_LEN`; nothing in the client checks that they are;
* `request_faithful_iff` : for which paths and users a namenode reads back from its URL
  what was asked for, no part of which is escaped.
-/
import Pungoo.WebhdfsPasses
import Pungoo.Query

namespace Webhdfs

open Run

/-! ## Texts in a buffer -/

/-- The buffer holds the whole text, with its terminator. -/
def Holds (buffer : List Char) (text : Str) : Prop := text ++ [nul] <+: buffer

/-- Both ways to fill a buffer: a part of the text, and zeros up to the size. -/
theorem holds_padded_iff {size kept : ℕ} (text : Str) (hkept : kept ≤ size)
    (hsize : size ≤ kept + 1) :
    Holds (text.take kept ++ List.replicate (size - (text.take kept).length) nul) text ↔
      text.length < size := by
  rw [List.length_take]
  constructor
  · intro h
    have hlen := h.length_le
    simp only [List.length_append, List.length_singleton, List.length_take,
      List.length_replicate] at hlen
    omega
  · intro h
    obtain ⟨zeros, hzeros⟩ : ∃ zeros, size - text.length = zeros + 1 :=
      ⟨size - text.length - 1, by omega⟩
    rw [List.take_of_length_le (by omega), Nat.min_eq_right (by omega), hzeros,
      List.replicate_succ]
    exact ⟨List.replicate zeros nul, by rw [List.append_assoc]; rfl⟩

/-- A text is whole in the buffer exactly if it fits with its zero. -/
theorem holds_snprintf_iff (size : ℕ) (text : Str) :
    Holds (snprintf size text) text ↔ text.length < size :=
  holds_padded_iff text (Nat.sub_le size 1) (by omega)

/-- `strncpy` leaves no terminator behind a text that fills the buffer. -/
theorem holds_strncpy_iff (size : ℕ) (text : Str) :
    Holds (strncpy size text) text ↔ text.length < size :=
  holds_padded_iff text (le_refl size) (Nat.le_succ size)

/-! ## What is handed to the library -/

/-- A call of `ghttp_set_uri`: the receiver and the text written last, and the buffer. -/
structure Uri where
  target : Option Target
  text : Str
  buffer : List Char

/-- The calls of `ghttp_set_uri`; `target` and `text` belong to the URL written last. -/
def uris (target : Option Target) (text : Str) : List Action → List Uri
  | [] => []
  | .format index url :: actions => uris (some (.namenode index)) url actions
  | .redirect location :: actions => uris (some (.datanode location)) location actions
  | .setUri buffer :: actions => ⟨target, text, buffer⟩ :: uris target text actions
  | _ :: actions => uris target text actions

/-- The calls of `ghttp_set_uri` of an operation. -/
def Outcome.uris (outcome : Outcome) : List Uri := Webhdfs.uris none [] outcome.actions

/-- The namenode request of a pass. -/
def WebhdfsT.namenodeUri (hdfs : WebhdfsT) (call : Call) : Uri :=
  ⟨some (.namenode hdfs.index_), hdfs.url call.path call.op,
    snprintf maxUrlLen (hdfs.url call.path call.op)⟩

/-- The request that follows a `Location`. -/
def datanodeUri (location : Str) : Uri :=
  ⟨some (.datanode location), location, strncpy maxUrlLen location⟩

/-- The requests of a pass that gets the `k`-th answer. -/
def WebhdfsT.passUris (hdfs : WebhdfsT) (call : Call) (k : ℕ) : List Uri :=
  hdfs.namenodeUri call :: (call.redirect k).toList.map datanodeUri

variable {J : Type*} {json : JsonC J} {hdfs : WebhdfsT} {call : Call} {target : Option Target}
  {text : Str} {actions : List Action}

/-- A request sets one URL. -/
theorem uris_request (buffer : List Char) (type : GhttpType) (body : Option Str) :
    uris target text (request buffer type body ++ actions)
      = ⟨target, text, buffer⟩ :: uris target text actions := by
  cases body with
  | none => rfl
  | some body => rfl

/-- Quiet actions set no URL. -/
theorem uris_of_quiet (h : ∀ a ∈ actions, a.Quiet) (rest : List Action) :
    uris target text (actions ++ rest) = uris target text rest := by
  induction actions with
  | nil => rfl
  | cons a actions ih =>
    rw [List.forall_mem_cons] at h
    cases a with
    | malloc | free | jsonParse | jsonPut => exact ih h.2
    | format | redirect | setUri | setType | setTimeout | setBody | prepare | process
    | clean => exact h.1.elim

theorem uris_redirect_clean (location : Str) :
    uris target text (.redirect location :: .clean :: actions)
      = uris (some (.datanode location)) location actions := rfl

/-- The requests of a pass.  What is written last in it does not matter to the next pass,
which begins by writing its own URL. -/
theorem uris_passActions (hdfs : WebhdfsT) (call : Call) (k : ℕ) (target : Option Target)
    (text : Str) (hquiet : ∀ a ∈ actions, a.Quiet) :
    ∃ target' text', ∀ rest, uris target text (hdfs.passActions call k actions ++ rest)
      = hdfs.passUris call k ++ uris target' text' rest := by
  unfold WebhdfsT.passActions WebhdfsT.passUris WebhdfsT.namenodeRequest Call.followUp
  cases call.redirect k with
  | none =>
    refine ⟨some (.namenode hdfs.index_), hdfs.url call.path call.op, ?_⟩
    intro rest
    simp only [Option.elim_none, List.nil_append, List.append_assoc, List.cons_append]
    rw [uris, uris_request, uris_of_quiet hquiet]
    rfl
  | some location =>
    refine ⟨some (.datanode location), location, ?_⟩
    intro rest
    simp only [Option.elim_some, redirectedRequest, List.nil_append, List.append_assoc,
      List.cons_append]
    rw [uris, uris_request, uris_redirect_clean, uris_request, uris_of_quiet hquiet]
    rfl

/-- The requests of a valid call. -/
theorem uris_run (json : JsonC J) (hdfs : WebhdfsT) (hvalid : call.Valid) :
    (run json hdfs call).uris =
      if call.Rejects (call.env.reply 0) then
        hdfs.passUris call 0 ++ hdfs.switchAddress.passUris call 1
      else hdfs.passUris call 0 := by
  obtain ⟨memory, hquiet, hactions⟩ := actions_of_valid json hdfs hvalid
  have hnone : ∀ a ∈ ([] : List Action), a.Quiet := by simp
  rw [Outcome.uris, hactions]
  split_ifs
  · obtain ⟨target, text, hfirst⟩ := uris_passActions hdfs call 0 none [] hnone
    obtain ⟨target', text', hsecond⟩ :=
      uris_passActions hdfs.switchAddress call 1 target text hquiet
    have hend := hsecond []
    rw [List.append_nil] at hend
    rw [hfirst, hend]
    exact congrArg _ (List.append_nil _)
  · obtain ⟨target, text, hfirst⟩ := uris_passActions hdfs call 0 none [] hquiet
    have hend := hfirst []
    rw [List.append_nil] at hend
    rw [hend]
    exact List.append_nil _

/-- A call with refused arguments sets no URL. -/
theorem uris_of_not_valid (hvalid : ¬ call.Valid) : (run json hdfs call).uris = [] := by
  rw [run_of_not_valid hvalid]
  rfl

/-! ## Complete and terminated URLs -/

/-- The URLs that a call means to send, by the answers it gets: the one of the address in
use, after a rejection the one of the other address, and a followed `Location`. -/
def WebhdfsT.texts (hdfs : WebhdfsT) (call : Call) : List Str :=
  if call.Rejects (call.env.reply 0) then
    hdfs.url call.path call.op :: hdfs.switchAddress.url call.path call.op
      :: (call.redirect 1).toList
  else hdfs.url call.path call.op :: (call.redirect 0).toList

/-- These URLs fit into the buffer, with the terminator. -/
def WebhdfsT.Fits (hdfs : WebhdfsT) (call : Call) : Prop :=
  call.Valid → ∀ text ∈ hdfs.texts call, text.length < maxUrlLen

/-- Every URL is sent whole, and an operation with a URL that does not fit fails. -/
def Outcome.SentWhole (outcome : Outcome) : Prop :=
  (∀ u ∈ outcome.uris, Holds u.buffer u.text) ∧
    ((∃ u ∈ outcome.uris, maxUrlLen ≤ u.text.length) → outcome.ret = -1)

theorem map_text_datanodeUri (locations : List Str) :
    (locations.map datanodeUri).map Uri.text = locations := by
  rw [List.map_map]
  exact List.map_id locations

/-- The texts that are written are the intended ones. -/
theorem map_text_uris (json : JsonC J) (hdfs : WebhdfsT) (hvalid : call.Valid) :
    (run json hdfs call).uris.map Uri.text = hdfs.texts call := by
  rw [uris_run json hdfs hvalid, WebhdfsT.texts]
  split_ifs with hrej
  · rw [List.map_append, WebhdfsT.passUris, redirect_of_rejects hrej, WebhdfsT.passUris,
      List.map_cons, List.map_cons, map_text_datanodeUri, map_text_datanodeUri]
    rfl
  · rw [WebhdfsT.passUris, List.map_cons, map_text_datanodeUri]
    rfl

/-- A URL of a pass is whole exactly if its text is shorter than the buffer. -/
theorem holds_passUris_iff {u : Uri} {k : ℕ} (h : u ∈ hdfs.passUris call k) :
    Holds u.buffer u.text ↔ u.text.length < maxUrlLen := by
  rcases List.mem_cons.mp h with rfl | h
  · exact holds_snprintf_iff maxUrlLen _
  · obtain ⟨location, -, rfl⟩ := List.mem_map.mp h
    exact holds_strncpy_iff maxUrlLen location

/-- Every URL of a call is one of its two passes. -/
theorem mem_passUris_of_mem_uris {u : Uri} (h : u ∈ (run json hdfs call).uris) :
    (∃ k, u ∈ hdfs.passUris call k) ∨ ∃ k, u ∈ hdfs.switchAddress.passUris call k := by
  by_cases hvalid : call.Valid
  · rw [uris_run json hdfs hvalid] at h
    split_ifs at h
    · rcases List.mem_append.mp h with h | h
      · exact Or.inl ⟨0, h⟩
      · exact Or.inr ⟨1, h⟩
    · exact Or.inl ⟨0, h⟩
  · rw [uris_of_not_valid hvalid] at h
    exact absurd h List.not_mem_nil

/-- A buffer holds its text exactly when this is short enough. -/
theorem holds_uris_iff {u : Uri} (h : u ∈ (run json hdfs call).uris) :
    Holds u.buffer u.text ↔ u.text.length < maxUrlLen := by
  rcases mem_passUris_of_mem_uris h with ⟨k, h⟩ | ⟨k, h⟩
  · exact holds_passUris_iff h
  · exact holds_passUris_iff h

/-- A call fits exactly if all its texts are shorter than the buffer. -/
theorem fits_iff (json : JsonC J) (hdfs : WebhdfsT) (call : Call) :
    hdfs.Fits call ↔ ∀ u ∈ (run json hdfs call).uris, u.text.length < maxUrlLen := by
  unfold WebhdfsT.Fits
  by_cases hvalid : call.Valid
  · rw [← map_text_uris json hdfs hvalid, List.forall_mem_map]
    exact ⟨fun h => h hvalid, fun h _ => h⟩
  · rw [uris_of_not_valid hvalid]
    exact iff_of_true (fun h => absurd h hvalid) (by simp)

/-- A call is sent whole exactly if it fits. -/
theorem sentWhole_iff (json : JsonC J) (hdfs : WebhdfsT) (call : Call) :
    (run json hdfs call).SentWhole ↔ hdfs.Fits call := by
  rw [fits_iff json hdfs call]
  constructor
  · rintro ⟨hholds, -⟩ u hu
    exact (holds_uris_iff hu).mp (hholds u hu)
  · intro h
    refine ⟨?_, ?_⟩
    · intro u hu
      exact (holds_uris_iff hu).mpr (h u hu)
    · rintro ⟨u, hu, hlong⟩
      exact absurd (h u hu) (not_lt.mpr hlong)

/-- **Complete URLs**: in every run, a call sends its URLs whole exactly when those it means
to send are shorter than `MAX_URL_LEN`. -/
theorem sent_whole_iff (hdfs : WebhdfsT) (calls : List (JsonC J × Call)) :
    ∀ e ∈ history stepWith hdfs calls, e.result.SentWhole ↔ e.before.Fits e.call.2 := by
  rw [forall_mem_history_iff]
  intro pre call post _
  exact sentWhole_iff call.1 _ call.2

/-- A call of `create_dir` that is answered. -/
def answeredCreateDir (path : Str) : Call :=
  .createDir ⟨fun _ => .ofCode 200 none [], true⟩ (some path)

/-- The URL that creates `/a` is sent whole. -/
theorem short_name_sent_whole :
    ∃ hdfs, webhdfsTCreate namenodes 2 (some ['u']) true true = some hdfs ∧
      ∃ e ∈ history stepWith hdfs [(existsJson, answeredCreateDir ['/', 'a'])],
        e.result.SentWhole := by
  refine ⟨_, rfl, _, List.mem_cons_self, ?_⟩
  refine (sent_whole_iff _ [(existsJson, answeredCreateDir ['/', 'a'])] _
    List.mem_cons_self).mpr ?_
  intro _
  decide

/-- The path alone may be too long. -/
theorem not_sentWhole_of_long_path (json : JsonC J) (hdfs : WebhdfsT) (hvalid : call.Valid)
    (hlong : maxUrlLen ≤ call.path.length) :
    ¬ ∀ e ∈ history stepWith hdfs [(json, call)], e.result.SentWhole := by
  intro h
  have hfits := (sentWhole_iff json hdfs call).mp (h _ List.mem_cons_self) hvalid
  have hmem : hdfs.url call.path call.op ∈ hdfs.texts call := by
    unfold WebhdfsT.texts
    split_ifs <;> exact List.mem_cons_self
  have hlen := hfits _ hmem
  unfold WebhdfsT.url at hlen
  simp only [List.length_append] at hlen
  omega

/-- The request that deletes a directory with a name of 600 characters has lost its `op`. -/
theorem long_name_not_sent_whole :
    ∃ hdfs, webhdfsTCreate namenodes 2 (some ['u']) true true = some hdfs ∧
      ¬ ∀ e ∈ history stepWith hdfs [(existsJson, .deleteDir
        ⟨fun _ => .ofCode 200 none [], true⟩ (some ('/' :: List.replicate 599 'a')))],
          e.result.SentWhole := by
  refine ⟨_, rfl, ?_⟩
  have hlen : ('/' :: List.replicate 599 'a').length = 600 := by
    rw [List.length_cons, List.length_replicate]
  apply not_sentWhole_of_long_path
  · refine ⟨_, rfl, ?_⟩
    rw [hlen]
    decide
  · show maxUrlLen ≤ ('/' :: List.replicate 599 'a').length
    rw [hlen]
    decide

/-! ## Reading a URL back -/

/-- The URL of the file system of a namenode. -/
def HdfsAddress.base (address : HdfsAddress) : Str :=
  "http://".toList ++ address.ip ++ ":".toList ++ decimal address.port ++ "/webhdfs/v1".toList

/-- What a namenode reads from a URL. -/
structure Resource where
  path : Str
  parameters : List (Str × Str)
  deriving DecidableEq

/-- The resource below `base`: its path ends at the first `?`, behind which the parameters
stand between `&`, each with its name before the first `=`. -/
def parseUrl (base url : Str) : Option Resource :=
  if base <+: url then
    (Query.splitFirst '?' (url.drop base.length)).bind fun p =>
      (Query.parse '&' '=' p.2).map fun parameters => ⟨p.1, parameters⟩
  else none

/-- The parameters behind the user. -/
def Call.parameters : Call → List (Str × Str)
  | .createFile _ _ => [("op".toList, "CREATE".toList)]
  | .write _ _ _ _ => [("op".toList, "APPEND".toList)]
  | .createDir _ _ => [("op".toList, "MKDIRS".toList)]
  | .deleteFile _ _ | .deleteDir _ _ =>
    [("op".toList, "DELETE".toList), ("recursive".toList, "true".toList)]

/-- What the call asks for, in the name of the user. -/
def Call.resource (call : Call) (user : Str) : Resource :=
  ⟨call.path, ("user.name".toList, user) :: call.parameters⟩

/-- A URL is read in one way. -/
theorem parseUrl_eq_some_iff {base url : Str} {resource : Resource} :
    parseUrl base (base ++ url) = some resource ↔
      '?' ∉ resource.path ∧ ∃ query, url = resource.path ++ '?' :: query ∧
        Query.parse '&' '=' query = some resource.parameters := by
  unfold parseUrl
  rw [if_pos (List.prefix_append base url), List.drop_left, Option.bind_eq_some_iff]
  constructor
  · rintro ⟨⟨path, query⟩, hsplit, hparse⟩
    obtain ⟨parameters, hparameters, rfl⟩ := Option.map_eq_some_iff.mp hparse
    obtain ⟨hpath, hurl⟩ := Query.splitFirst_eq_some_iff.mp hsplit
    exact ⟨hpath, query, hurl, hparameters⟩
  · rintro ⟨hpath, query, hurl, hparameters⟩
    refine ⟨(resource.path, query), Query.splitFirst_eq_some_iff.mpr ⟨hpath, hurl⟩, ?_⟩
    rw [hparameters]
    rfl

theorem parameters_ne_nil (call : Call) : call.parameters ≠ [] := by
  cases call <;> exact List.cons_ne_nil _ _

theorem render_parameters (call : Call) :
    Query.render '&' '=' call.parameters = "op=".toList ++ call.op := by
  cases call <;> rfl

/-- The query of the URL of a call. -/
theorem render_resource (call : Call) (user : Str) :
    '?' :: Query.render '&' '=' (call.resource user).parameters
      = "?user.name=".toList ++ (user ++ ("&op=".toList ++ call.op)) := by
  have hname : "?user.name=".toList = '?' :: ("user.name".toList ++ ['=']) := by decide
  have hop : "&op=".toList = '&' :: "op=".toList := by decide
  unfold Call.resource
  rw [Query.render_cons _ (parameters_ne_nil call), render_parameters, hname, hop, Query.joined]
  simp only [List.cons_append, List.append_assoc, List.nil_append]

/-- The URL of a call is the path and the query, below the base of the namenode. -/
theorem url_eq (hdfs : WebhdfsT) (call : Call) :
    hdfs.url call.path call.op = hdfs.address.base ++ (call.path ++ '?' ::
      Query.render '&' '=' (call.resource hdfs.user_).parameters) := by
  rw [render_resource]
  unfold WebhdfsT.url HdfsAddress.base
  simp only [List.append_assoc]

/-- No name and no value but the user can contain a separator. -/
theorem parameters_separated_iff (call : Call) (user : Str) :
    (∀ p ∈ (call.resource user).parameters, '&' ∉ Query.joined '=' p ∧ '=' ∉ p.1) ↔
      '&' ∉ user := by
  have hrest : ∀ p ∈ call.parameters, '&' ∉ Query.joined '=' p ∧ '=' ∉ p.1 := by
    cases call <;> simp [Call.parameters, Query.joined]
  unfold Call.resource
  rw [List.forall_mem_cons]
  constructor
  · rintro ⟨⟨huser, -⟩, -⟩ hmem
    exact huser (List.mem_append_right _ (List.mem_cons_of_mem _ hmem))
  · intro huser
    refine ⟨⟨?_, ?_⟩, hrest⟩
    · simp [Query.joined, huser]
    · show '=' ∉ "user.name".toList
      decide

/-- A namenode reads back what was asked for unless the path or the user gets in the way. -/
theorem parseUrl_url_iff (hdfs : WebhdfsT) (call : Call) :
    parseUrl hdfs.address.base (hdfs.url call.path call.op) = some (call.resource hdfs.user_) ↔
      '?' ∉ call.path ∧ '&' ∉ hdfs.user_ := by
  rw [url_eq, parseUrl_eq_some_iff, ← parameters_separated_iff call]
  have hne : (call.resource hdfs.user_).parameters ≠ [] := List.cons_ne_nil _ _
  constructor
  · rintro ⟨hpath, query, hquery, hparse⟩
    have htail := List.append_cancel_left hquery
    rw [← (List.cons.inj htail).2] at hparse
    exact ⟨hpath, (Query.parse_render_iff hne).mp hparse⟩
  · rintro ⟨hpath, hseparated⟩
    exact ⟨hpath, _, rfl, (Query.parse_render_iff hne).mpr hseparated⟩

/-! ## Requests of a run -/

/-- The addresses and the user of a client, which no call changes. -/
def SameClient (hdfs hdfs' : WebhdfsT) : Prop :=
  hdfs'.address_ = hdfs.address_ ∧ hdfs'.user_ = hdfs.user_

/-- A call keeps the addresses and the user. -/
theorem sameClient_step (call : JsonC J × Call) : SameClient hdfs (stepWith hdfs call).2 := by
  unfold stepWith step
  by_cases hvalid : call.2.Valid
  · obtain ⟨type, path, op, ⟨-, ret, rest, -, hrun⟩ | ⟨-, -, ret, rest, -, hrun⟩ |
      ⟨-, -, hrun⟩⟩ := run_cases call.1 hdfs hvalid
    · rw [hrun]
      exact ⟨rfl, rfl⟩
    · rw [hrun]
      exact ⟨rfl, rfl⟩
    · rw [hrun]
      exact ⟨rfl, rfl⟩
  · rw [run_of_not_valid hvalid]
    exact ⟨rfl, rfl⟩

/-- A run keeps the addresses and the user. -/
theorem sameClient_after (hdfs : WebhdfsT) (calls : List (JsonC J × Call)) :
    SameClient hdfs (after stepWith hdfs calls) := by
  apply invariant_after stepWith
  · intro hdfs' call h
    have hstep : SameClient hdfs' (stepWith hdfs' call).2 := sameClient_step call
    exact ⟨hstep.1.trans h.1, hstep.2.trans h.2⟩
  · exact ⟨rfl, rfl⟩

/-- A request to a namenode carries the URL formatted from its address. -/
theorem text_of_namenode {u : Uri} {index : Fin maxAddressNum}
    (h : u ∈ (run json hdfs call).uris) (htarget : u.target = some (.namenode index)) :
    ∃ hdfs', SameClient hdfs hdfs' ∧ hdfs'.address = hdfs.address_ index ∧
      u.text = hdfs'.url call.path call.op := by
  have hpass : ∀ hdfs' k, SameClient hdfs hdfs' → u ∈ hdfs'.passUris call k →
      ∃ hdfs', SameClient hdfs hdfs' ∧ hdfs'.address = hdfs.address_ index ∧
        u.text = hdfs'.url call.path call.op := by
    intro hdfs' k hsame hmem
    rcases List.mem_cons.mp hmem with rfl | hmem
    · refine ⟨hdfs', hsame, ?_, rfl⟩
      have hindex : hdfs'.index_ = index := Target.namenode.inj (Option.some.inj htarget)
      rw [WebhdfsT.address, hsame.1]
      exact congrArg hdfs.address_ (Fin.ext hindex)
    · obtain ⟨location, -, rfl⟩ := List.mem_map.mp hmem
      exact absurd (Option.some.inj htarget) Target.noConfusion
  rcases mem_passUris_of_mem_uris h with ⟨k, hmem⟩ | ⟨k, hmem⟩
  · exact hpass hdfs k ⟨rfl, rfl⟩ hmem
  · exact hpass hdfs.switchAddress k ⟨rfl, rfl⟩ hmem

/-- **The encoding of requests**: in every run of a client, a namenode whose URL fits into
the buffer gets all of it, and reads back from it the path, the user and the parameters of
the call exactly when the path has no `?` and the user no `&`. -/
theorem request_faithful_iff {addr : ℕ → HdfsAddress} {num : ℤ} {user : Str}
    {malloc requestNew : Bool} {hdfs : WebhdfsT}
    (hcreate : webhdfsTCreate addr num (some user) malloc requestNew = some hdfs)
    (calls : List (JsonC J × Call)) :
    ∀ e ∈ history stepWith hdfs calls, ∀ u ∈ e.result.uris, ∀ index : Fin maxAddressNum,
      u.target = some (.namenode index) → u.text.length < maxUrlLen →
        Holds u.buffer u.text ∧
          (parseUrl (hdfs.address_ index).base u.text = some (e.call.2.resource user) ↔
            '?' ∉ e.call.2.path ∧ '&' ∉ user) := by
  rw [forall_mem_history_iff]
  intro pre call post _ u hu index htarget hfits
  have hclient := sameClient_after hdfs pre
  refine ⟨(holds_uris_iff hu).mpr hfits, ?_⟩
  obtain ⟨hdfs', hsame, haddress, htext⟩ := text_of_namenode hu htarget
  have huser : hdfs'.user_ = user := by
    rw [hsame.2, hclient.2]
    exact (Option.some.inj (create_spec hcreate).2.2).symm
  have hparse := parseUrl_url_iff hdfs' call.2
  rw [haddress, hclient.1, ← htext, huser] at hparse
  exact hparse

/-- The address in use at first. -/
def firstAddress : Fin maxAddressNum := ⟨0, Nat.zero_lt_two⟩

/-- Creating `/a` is what the namenode reads. -/
theorem plain_name_faithful :
    ∃ hdfs, webhdfsTCreate namenodes 2 (some ['u']) true true = some hdfs ∧
      ∃ e ∈ history stepWith hdfs [(existsJson, answeredCreateDir ['/', 'a'])], ∃ u ∈ e.result.uris,
        parseUrl (hdfs.address_ firstAddress).base u.text
          = some ⟨['/', 'a'], [("user.name".toList, ['u']), ("op".toList, "MKDIRS".toList)]⟩ := by
  obtain ⟨hdfs, hcreate⟩ : ∃ hdfs,
      webhdfsTCreate namenodes 2 (some ['u']) true true = some hdfs := ⟨_, rfl⟩
  have hclient := Option.some.inj hcreate
  refine ⟨hdfs, hcreate, _, List.mem_cons_self, hdfs.namenodeUri (answeredCreateDir ['/', 'a']),
    ?_, ?_⟩
  · exact List.mem_cons_self
  · refine (request_faithful_iff hcreate [(existsJson, answeredCreateDir ['/', 'a'])] _
      List.mem_cons_self _ List.mem_cons_self firstAddress ?_ ?_).2.mpr ?_
    · rw [← hclient]
      rfl
    · rw [← hclient]
      decide
    · show '?' ∉ ['/', 'a'] ∧ '&' ∉ ['u']
      decide

/-- Creating `/a?b` is read as an operation on `/a`. -/
theorem question_mark_not_faithful :
    ∃ hdfs, webhdfsTCreate namenodes 2 (some ['u']) true true = some hdfs ∧
      ∃ e ∈ history stepWith hdfs [(existsJson, answeredCreateDir ['/', 'a', '?', 'b'])],
        ∃ u ∈ e.result.uris, u.target = some (.namenode firstAddress) ∧
          u.text.length < maxUrlLen ∧
          parseUrl (hdfs.address_ firstAddress).base u.text
            ≠ some ((answeredCreateDir ['/', 'a', '?', 'b']).resource ['u']) := by
  refine ⟨_, rfl, _, List.mem_cons_self, _, List.mem_cons_self, rfl, ?_, ?_⟩
  · decide
  · intro h
    have hpath := (parseUrl_url_iff _ (answeredCreateDir ['/', 'a', '?', 'b'])).mp h
    exact absurd hpath.1 (by decide)

end Webhdfs
