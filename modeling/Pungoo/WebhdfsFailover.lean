/-
# Which addresses an operation contacts, and when it succeeds

`requests` reads off the actions of a call where its requests go: to the namenode of an
index, or to a datanode.

* `failover_policy` : the order of the requests and the result of every operation, from
  the answers it gets.
* `configured_iff` : when a client made with one address ever uses the second one.
-/
import Pungoo.Webhdfs

namespace Webhdfs

open Run

/-! ## Reading the actions -/

/-- The receiver of a request. -/
inductive Target
  | namenode (index : ℕ)
  | datanode (location : Str)
  deriving DecidableEq, Repr

/-- The receivers of the requests sent by the actions, `target` being the one whose URL was
written last. -/
def sent : Option Target → List Action → List Target
  | _, [] => []
  | _, .format index _ :: actions => sent (some (.namenode index)) actions
  | _, .redirect location :: actions => sent (some (.datanode location)) actions
  | target, .process :: actions => target.toList ++ sent target actions
  | target, _ :: actions => sent target actions

/-- The receivers of the requests of a call. -/
def requests (actions : List Action) : List Target := sent none actions

/-- The indices from whose address a URL is formatted. -/
def formatted (actions : List Action) : List ℕ :=
  actions.filterMap fun
    | .format index _ => some index
    | _ => none

/-- The action neither writes a URL nor sends a request. -/
def Action.Local : Action → Prop
  | .format _ _ | .redirect _ | .process => False
  | _ => True

variable {J : Type*} {json : JsonC J} {hdfs : WebhdfsT} {call : Call} {type : GhttpType}
  {path op : Str} {target : Option Target} {actions : List Action}

/-- Local actions send nothing. -/
theorem sent_of_local (h : ∀ a ∈ actions, a.Local) : sent target actions = [] := by
  induction actions with
  | nil => rfl
  | cons a actions ih =>
    rw [List.forall_mem_cons] at h
    cases a with
    | format | redirect | process => exact h.1.elim
    | setUri | setType | setTimeout | setBody | prepare | clean | malloc | free | jsonParse
    | jsonPut => exact ih h.2

/-- Local actions format no URL. -/
theorem formatted_of_local (h : ∀ a ∈ actions, a.Local) : formatted actions = [] := by
  unfold formatted
  rw [List.filterMap_eq_nil_iff]
  intro a ha
  cases a with
  | format => exact (h _ ha).elim
  | redirect | process | setUri | setType | setTimeout | setBody | prepare | clean | malloc
  | free | jsonParse | jsonPut => rfl

theorem formatted_append (actions rest : List Action) :
    formatted (actions ++ rest) = formatted actions ++ formatted rest :=
  List.filterMap_append

/-- A request is sent to the target of the URL. -/
theorem sent_request (buffer : List Char) (type : GhttpType) (body : Option Str) (t : Target)
    (rest : List Action) :
    sent (some t) (request buffer type body ++ rest) = t :: sent (some t) rest := by
  cases body with
  | none => rfl
  | some body => rfl

theorem formatted_request (buffer : List Char) (type : GhttpType) (body : Option Str) :
    formatted (request buffer type body) = [] := by
  cases body with
  | none => rfl
  | some body => rfl

/-- A pass to a namenode is sent to the address in use. -/
theorem sent_namenodeRequest (rest : List Action) :
    sent target (hdfs.namenodeRequest type path op ++ rest)
      = .namenode hdfs.index_ :: sent (some (.namenode hdfs.index_)) rest := by
  unfold WebhdfsT.namenodeRequest
  rw [List.cons_append, sent, sent_request]

/-- A pass to a namenode formats its URL from the address in use. -/
theorem formatted_namenodeRequest :
    formatted (hdfs.namenodeRequest type path op) = [hdfs.index_] := by
  unfold WebhdfsT.namenodeRequest
  rw [← List.singleton_append, formatted_append, formatted_request]
  rfl

theorem sent_clean (rest : List Action) : sent target (.clean :: rest) = sent target rest := rfl

/-- A redirected request is sent to its location. -/
theorem sent_redirectedRequest (location : Str) (body : Option Str) (rest : List Action) :
    sent target (redirectedRequest location type body ++ rest)
      = .datanode location :: sent (some (.datanode location)) rest := by
  exact sent_request (strncpy maxUrlLen location) type body (.datanode location) rest

theorem formatted_redirectedRequest (location : Str) (body : Option Str) :
    formatted (redirectedRequest location type body) = [] := by
  cases body with
  | none => rfl
  | some body => rfl

/-! ## What an operation wants -/

/-- The arguments are not refused. -/
def Call.Valid : Call → Prop
  | .write _ _ buf len => buf ≠ none ∧ 1 ≤ len
  | .createFile _ path | .deleteFile _ path | .createDir _ path | .deleteDir _ path =>
    ∃ text, path = some text ∧ 1 ≤ text.length

/-- A namenode rejects with this answer. -/
def Call.Rejects : Call → Reply → Prop
  | .createFile _ _, reply | .write _ _ _ _, reply =>
    reply.status = .error ∨ reply.statusCode ≠ 307 ∨ reply.location = none
  | .deleteFile _ _, reply | .createDir _ _, reply | .deleteDir _ _, reply =>
    reply.status = .error ∨ reply.statusCode ≠ 200

/-- The answer confirms an `APPEND`. -/
def Reply.Confirms (reply : Reply) : Prop := reply.status ≠ .error ∧ reply.statusCode = 200

/-- The answer is lost with the error that `webhdfs_write` ignores. -/
def Reply.IsIgnored (reply : Reply) : Prop :=
  reply.status = .error ∧ reply.errno = eagain ∧ reply.errorText = "Unknown Error.".toList

/-- The body of the answer says that the file exists. -/
def FileExists (json : JsonC J) (reply : Reply) : Prop :=
  ∃ respObj objField subObjField,
    json.tokenerParse (reply.body.takeWhile (· ≠ nul)) = some respObj ∧
    json.objectGetEx respObj "RemoteException".toList = some objField ∧
    json.objectGetEx objField "exception".toList = some subObjField ∧
    json.getString subObjField = "FileAlreadyExistsException".toList

/-- The datanode stage accepts with this answer; without a redirect there is no such
stage.  The body of an answer 403 can only be read when there is memory for a copy. -/
def Call.DatanodeAccepts (json : JsonC J) : Call → Reply → Prop
  | .createFile env _, reply =>
    reply.status ≠ .error ∧
      (reply.statusCode = 201 ∨
        reply.statusCode = 403 ∧ FileExists json reply ∧ env.malloc = true)
  | .write _ _ _ _, reply => reply.Confirms ∨ reply.IsIgnored
  | .deleteFile _ _, _ | .createDir _ _, _ | .deleteDir _ _, _ => True

/-- The value that reports success. -/
def Call.success : Call → ℤ
  | .write _ _ _ len => len
  | .createFile _ _ | .deleteFile _ _ | .createDir _ _ | .deleteDir _ _ => 0

/-- What the code makes of the `k`-th answer, as the answer to a namenode request. -/
def Call.answer (json : JsonC J) : Call → ℕ → Option (ℤ × List Action)
  | .createFile env _ => followRedirect env .put none (createFileDatanode json env.malloc)
  | .write env _ buf len =>
    followRedirect env .post (some ((buf.getD []).take len.toNat)) (writeDatanode len)
  | .deleteFile env _ | .createDir env _ | .deleteDir env _ => answered env

/-! ## The stages -/

/-- The answers that do not redirect. -/
theorem redirect_eq_none_iff {reply : Reply} :
    reply.redirect = none ↔
      reply.status = .error ∨ reply.statusCode ≠ 307 ∨ reply.location = none := by
  unfold Reply.redirect
  split_ifs with h1 h2
  · exact iff_of_true rfl (Or.inl h1)
  · exact iff_of_true rfl (Or.inr (Or.inl h2))
  · exact ⟨fun h => Or.inr (Or.inr h), fun h => (h.resolve_left h1).resolve_left h2⟩

/-- Without a redirect the pass fails. -/
theorem followRedirect_eq_none_iff {env : Env} {body : Option Str}
    {datanode : Reply → ℤ × List Action} {k : ℕ} :
    followRedirect env type body datanode k = none ↔ (env.reply k).redirect = none := by
  unfold followRedirect
  split
  · next h => exact iff_of_true rfl h
  · next location h => exact iff_of_false (Option.some_ne_none _) (h ▸ Option.some_ne_none _)

/-- A redirect is followed by the request to the datanode and what its answer leads to. -/
theorem followRedirect_eq_some {env : Env} {body : Option Str}
    {datanode : Reply → ℤ × List Action} {k : ℕ} {location : Str}
    (h : (env.reply k).redirect = some location) :
    followRedirect env type body datanode k = some ((datanode (env.reply (k + 1))).1,
      redirectedRequest location type body ++ (datanode (env.reply (k + 1))).2) := by
  unfold followRedirect
  rw [h]

/-- A result of `followRedirect` is that of a redirect and of the answer of the datanode. -/
theorem redirect_of_followRedirect {env : Env} {body : Option Str}
    {datanode : Reply → ℤ × List Action} {k : ℕ} {ret : ℤ} {rest : List Action}
    (h : followRedirect env type body datanode k = some (ret, rest)) :
    ∃ location, (env.reply k).redirect = some location ∧ ret = (datanode (env.reply (k + 1))).1 ∧
      rest = redirectedRequest location type body ++ (datanode (env.reply (k + 1))).2 := by
  cases hloc : (env.reply k).redirect with
  | none =>
    rw [followRedirect_eq_none_iff.mpr hloc] at h
    exact absurd h.symm (Option.some_ne_none _)
  | some location =>
    rw [followRedirect_eq_some hloc] at h
    obtain ⟨hret, hrest⟩ := Prod.mk.inj (Option.some.inj h)
    exact ⟨location, rfl, hret.symm, hrest.symm⟩

/-- An answer is rejected exactly when the loop continues. -/
theorem answer_eq_none_iff (k : ℕ) :
    call.answer json k = none ↔ call.Rejects (call.env.reply k) := by
  cases call with
  | createFile env filename =>
    unfold Call.answer
    exact followRedirect_eq_none_iff.trans redirect_eq_none_iff
  | write env filename buf len =>
    unfold Call.answer
    exact followRedirect_eq_none_iff.trans redirect_eq_none_iff
  | deleteFile env path | createDir env path | deleteDir env path =>
    rw [Call.answer, answered]
    split_ifs with h1 h2
    · exact iff_of_true rfl (Or.inl h1)
    · exact iff_of_true rfl (Or.inr h2)
    · exact iff_of_false id (not_or.mpr ⟨h1, h2⟩)

/-- A stage after the namenode's answer sends nothing, and its result tells whether the
condition `P` holds. -/
structure Settles (stage : ℤ × List Action) (success : ℤ) (P : Prop) : Prop where
  quiet : ∀ a ∈ stage.2, a.Local
  ret_iff : stage.1 = success ↔ P
  ret_or : stage.1 = success ∨ stage.1 = -1

/-- A stage that succeeds. -/
theorem settles_success {success : ℤ} {P : Prop} (h : P) (hlocal : ∀ a ∈ actions, a.Local) :
    Settles (success, actions) success P :=
  ⟨hlocal, iff_of_true rfl h, Or.inl rfl⟩

/-- A stage that fails. -/
theorem settles_failure {success : ℤ} {P : Prop} (h : ¬ P) (hsuccess : success ≠ -1)
    (hlocal : ∀ a ∈ actions, a.Local) : Settles (-1, actions) success P :=
  ⟨hlocal, iff_of_false (Ne.symm hsuccess) h, Or.inr rfl⟩

/-- The 403 branch succeeds if the file exists already and the text of the answer could be copied.
-/
theorem alreadyExists_settles (json : JsonC J) (malloc : Bool) (reply : Reply) :
    Settles (alreadyExists json malloc reply) 0 (FileExists json reply ∧ malloc = true) := by
  unfold alreadyExists
  split_ifs with hm
  · exact settles_failure (fun h => by simp [hm] at h) (by decide) (by simp [Action.Local])
  · split
    · next h =>
      refine settles_failure ?_ (by decide) (by simp [Action.Local])
      rintro ⟨⟨_, _, _, hp, -⟩, -⟩
      exact Option.some_ne_none _ (hp.symm.trans h)
    · next respObj hp =>
      split
      · next h =>
        refine settles_failure ?_ (by decide) (by simp [Action.Local])
        rintro ⟨⟨_, _, _, hp', hf, -⟩, -⟩
        obtain rfl := Option.some.inj (hp.symm.trans hp')
        exact Option.some_ne_none _ (hf.symm.trans h)
      · next objField hf =>
        split
        · next h =>
          refine settles_failure ?_ (by decide) (by simp [Action.Local])
          rintro ⟨⟨_, _, _, hp', hf', he, -⟩, -⟩
          obtain rfl := Option.some.inj (hp.symm.trans hp')
          obtain rfl := Option.some.inj (hf.symm.trans hf')
          exact Option.some_ne_none _ (he.symm.trans h)
        · next subObjField he =>
          -- only the text of the exception decides
          split_ifs with hs
          · exact settles_success ⟨⟨_, _, _, hp, hf, he, hs⟩, by simpa using hm⟩
              (by simp [Action.Local])
          · refine settles_failure ?_ (by decide) (by simp [Action.Local])
            rintro ⟨⟨_, _, _, hp', hf', he', hs'⟩, -⟩
            obtain rfl := Option.some.inj (hp.symm.trans hp')
            obtain rfl := Option.some.inj (hf.symm.trans hf')
            obtain rfl := Option.some.inj (he.symm.trans he')
            exact hs hs'

/-- The datanode stage of `webhdfs_create_file`. -/
theorem createFileDatanode_settles (env : Env) (filename : Option Str) (reply : Reply) :
    Settles (createFileDatanode json env.malloc reply) 0
      ((Call.createFile env filename).DatanodeAccepts json reply) := by
  unfold createFileDatanode
  rw [Call.DatanodeAccepts]
  split_ifs with h1 h2 h3
  · exact settles_failure (fun h => h.1 h1) (by decide) (by simp [Action.Local])
  · have hexists := alreadyExists_settles json env.malloc reply
    refine ⟨hexists.quiet, hexists.ret_iff.trans ?_, hexists.ret_or⟩
    constructor
    · exact fun h => ⟨h1, Or.inr ⟨h3, h⟩⟩
    · rintro ⟨-, h | h⟩
      · exact absurd h h2
      · exact h.2
  · refine settles_failure ?_ (by decide) (by simp [Action.Local])
    rintro ⟨-, h | h⟩
    · exact h2 h
    · exact h3 h.1
  · exact settles_success ⟨h1, Or.inl (not_not.mp h2)⟩ (by simp [Action.Local])

/-- The datanode stage of `webhdfs_write`. -/
theorem writeDatanode_settles {len : ℤ} (hlen : 1 ≤ len) (reply : Reply) :
    Settles (writeDatanode len reply) len (reply.Confirms ∨ reply.IsIgnored) := by
  unfold writeDatanode
  split_ifs with h1 h2 h3
  · exact settles_success (Or.inr ⟨h1, h2⟩) (by simp [Action.Local])
  · refine settles_failure ?_ (by omega) (by simp [Action.Local])
    rintro (h | h)
    · exact h.1 h1
    · exact h2 h.2
  · refine settles_failure ?_ (by omega) (by simp [Action.Local])
    rintro (h | h)
    · exact h3 h.2
    · exact h1 h.1
  · exact settles_success (Or.inl ⟨h1, not_not.mp h3⟩) (by simp [Action.Local])

/-- What follows an accepted answer: at most one request to a datanode, nothing after it,
and a result that tells whether the datanode stage accepted. -/
structure Completes (json : JsonC J) (call : Call) (k : ℕ) (ret : ℤ) (rest : List Action) :
    Prop where
  sent_eq : ∃ datanodes : List Str, datanodes.length ≤ 1 ∧
    ∀ target, sent target rest = datanodes.map .datanode
  formatted_eq : formatted rest = []
  ret_iff : ret = call.success ↔ call.DatanodeAccepts json (call.env.reply (k + 1))
  ret_or : ret = call.success ∨ ret = -1

/-- A redirect completes the pass, with the result of its stage. -/
theorem followRedirect_completes {env : Env} {body : Option Str} {k : ℕ} {ret : ℤ}
    {datanode : Reply → ℤ × List Action} {rest : List Action} (henv : call.env = env)
    (hstage : ∀ reply, Settles (datanode reply) call.success (call.DatanodeAccepts json reply))
    (h : followRedirect env type body datanode k = some (ret, rest)) :
    Completes json call k ret rest := by
  obtain ⟨location, -, rfl, rfl⟩ := redirect_of_followRedirect h
  have hsettles := hstage (env.reply (k + 1))
  refine ⟨⟨[location], le_refl 1, ?_⟩, ?_, ?_, hsettles.ret_or⟩
  · intro target
    rw [sent_redirectedRequest, sent_of_local hsettles.quiet]
    rfl
  · rw [formatted_append, formatted_redirectedRequest, formatted_of_local hsettles.quiet]
    rfl
  · rw [henv]
    exact hsettles.ret_iff

/-- An accepted answer completes the pass. -/
theorem answer_completes (hvalid : call.Valid) {k : ℕ} {ret : ℤ} {rest : List Action}
    (h : call.answer json k = some (ret, rest)) : Completes json call k ret rest := by
  cases call with
  | createFile env filename =>
    exact followRedirect_completes rfl (createFileDatanode_settles env filename) h
  | write env filename buf len =>
    exact followRedirect_completes rfl (writeDatanode_settles hvalid.2) h
  | deleteFile env path | createDir env path | deleteDir env path =>
    rw [Call.answer, answered] at h
    split_ifs at h
    obtain ⟨rfl, rfl⟩ := Prod.mk.inj (Option.some.inj h)
    exact ⟨⟨[], Nat.zero_le 1, fun target => rfl⟩, rfl, iff_of_true rfl trivial, Or.inl rfl⟩

/-! ## The loop -/

/-- A valid call runs the loop over the addresses. -/
theorem run_of_valid (json : JsonC J) (hdfs : WebhdfsT) (hvalid : call.Valid) :
    run json hdfs call
      = tryAddresses (pass call.type call.path call.op (call.answer json)) maxAddressNum hdfs 0 := by
  cases call with
  | createFile env filename =>
    obtain ⟨text, rfl, htext⟩ := hvalid
    rw [run, webhdfsCreateFile, if_neg (not_lt.mpr htext)]
    rfl
  | write env filename buf len =>
    obtain ⟨hbuf, hlen⟩ := hvalid
    obtain ⟨text, rfl⟩ := Option.ne_none_iff_exists'.mp hbuf
    rw [run, webhdfsWrite, if_neg (not_lt.mpr hlen)]
    rfl
  | deleteFile env path =>
    obtain ⟨text, rfl, htext⟩ := hvalid
    rw [run, webhdfsDeleteFile, webhdfsDeleteDir, dirOperation, if_neg (not_lt.mpr htext)]
    rfl
  | createDir env path =>
    obtain ⟨text, rfl, htext⟩ := hvalid
    rw [run, webhdfsCreateDir, dirOperation, if_neg (not_lt.mpr htext)]
    rfl
  | deleteDir env path =>
    obtain ⟨text, rfl, htext⟩ := hvalid
    rw [run, webhdfsDeleteDir, dirOperation, if_neg (not_lt.mpr htext)]
    rfl

/-- A call that is not valid is refused. -/
theorem run_of_not_valid (h : ¬ call.Valid) : run json hdfs call = .refused (some hdfs) := by
  cases call with
  | createFile env filename =>
    cases filename with
    | none => rfl
    | some text =>
      rw [run, webhdfsCreateFile]
      exact if_pos (not_le.mp fun hlen => h ⟨text, rfl, hlen⟩)
  | write env filename buf len =>
    cases buf with
    | none => rfl
    | some text =>
      rw [run, webhdfsWrite]
      exact if_pos (not_le.mp fun hlen => h ⟨Option.some_ne_none text, hlen⟩)
  | deleteFile env path | createDir env path | deleteDir env path =>
    cases path with
    | none => rfl
    | some text => exact if_pos (not_le.mp fun hlen => h ⟨text, rfl, hlen⟩)

/-- The two passes of the loop. -/
theorem tryAddresses_pass (next : ℕ → Option (ℤ × List Action)) :
    tryAddresses (pass type path op next) maxAddressNum hdfs 0 =
      match next 0 with
      | some (ret, rest) => ⟨ret, some hdfs, hdfs.namenodeRequest type path op ++ rest⟩
      | none =>
        match next 1 with
        | some (ret, rest) =>
          ⟨ret, some hdfs.switchAddress,
            hdfs.namenodeRequest type path op ++ [.clean]
              ++ (hdfs.switchAddress.namenodeRequest type path op ++ rest)⟩
        | none =>
          ⟨-1, some hdfs.switchAddress.switchAddress,
            hdfs.namenodeRequest type path op ++ [.clean]
              ++ (hdfs.switchAddress.namenodeRequest type path op ++ [.clean] ++ [])⟩ := by
  unfold maxAddressNum
  rw [tryAddresses, pass]
  cases h0 : next 0 with
  | some stage => rfl
  | none =>
    dsimp only
    rw [tryAddresses, pass]
    cases h1 : next 1 with
    | some stage => rfl
    | none => rfl

/-! ## The policy -/

instance (call : Call) (reply : Reply) : Decidable (call.Rejects reply) := by
  cases call <;> exact inferInstanceAs (Decidable (_ ∨ _))

/-- The indices a call contacts: the one in use, and after a rejection the other one. -/
def contacted (hdfs : WebhdfsT) (call : Call) : List ℕ :=
  if call.Rejects (call.env.reply 0) then [hdfs.index_, (hdfs.index_ + 1) % maxAddressNum]
  else [hdfs.index_]

/-- Success is no failure. -/
theorem success_ne (hvalid : call.Valid) : call.success ≠ -1 := by
  cases call with
  | write env filename buf len =>
    have hlen : 1 ≤ len := hvalid.2
    show len ≠ -1
    omega
  | createFile | deleteFile | createDir | deleteDir => exact of_decide_eq_false rfl

/-- What a valid call does, by the first answer that is not rejected. -/
theorem run_cases (json : JsonC J) (hdfs : WebhdfsT) (hvalid : call.Valid) :
    ∃ type path op,
      (¬ call.Rejects (call.env.reply 0) ∧ ∃ ret rest, Completes json call 0 ret rest ∧
        run json hdfs call = ⟨ret, some hdfs, hdfs.namenodeRequest type path op ++ rest⟩) ∨
      (call.Rejects (call.env.reply 0) ∧ ¬ call.Rejects (call.env.reply 1) ∧
        ∃ ret rest, Completes json call 1 ret rest ∧
          run json hdfs call = ⟨ret, some hdfs.switchAddress,
            hdfs.namenodeRequest type path op ++ [.clean]
              ++ (hdfs.switchAddress.namenodeRequest type path op ++ rest)⟩) ∨
      (call.Rejects (call.env.reply 0) ∧ call.Rejects (call.env.reply 1) ∧
        run json hdfs call = ⟨-1, some hdfs.switchAddress.switchAddress,
          hdfs.namenodeRequest type path op ++ [.clean]
            ++ (hdfs.switchAddress.namenodeRequest type path op ++ [.clean] ++ [])⟩) := by
  refine ⟨call.type, call.path, call.op, ?_⟩
  rw [run_of_valid json hdfs hvalid, tryAddresses_pass]
  -- the first answer that is not rejected ends the loop
  cases h0 : call.answer json 0 with
  | some stage =>
    refine Or.inl ⟨?_, stage.1, stage.2, answer_completes hvalid h0, rfl⟩
    intro hrej
    exact Option.some_ne_none _ (h0.symm.trans ((answer_eq_none_iff 0).mpr hrej))
  | none =>
    have hrej0 := (answer_eq_none_iff 0).mp h0
    cases h1 : call.answer json 1 with
    | some stage =>
      refine Or.inr (Or.inl ⟨hrej0, ?_, stage.1, stage.2,
        answer_completes hvalid h1, rfl⟩)
      intro hrej
      exact Option.some_ne_none _ (h1.symm.trans ((answer_eq_none_iff 1).mpr hrej))
    | none => exact Or.inr (Or.inr ⟨hrej0, (answer_eq_none_iff 1).mp h1, rfl⟩)

/-- A valid call formats its URLs from the contacted indices. -/
theorem formatted_run (json : JsonC J) (hdfs : WebhdfsT) (hvalid : call.Valid) :
    formatted (run json hdfs call).actions = contacted hdfs call := by
  obtain ⟨type, path, op, ⟨h0, ret, rest, hcomp, hrun⟩ | ⟨h0, h1, ret, rest, hcomp, hrun⟩ |
    ⟨h0, h1, hrun⟩⟩ := run_cases json hdfs hvalid
  · rw [hrun, contacted, if_neg h0, formatted_append, formatted_namenodeRequest,
      hcomp.formatted_eq]
    rfl
  · rw [hrun, contacted, if_pos h0]
    simp only [formatted_append, formatted_namenodeRequest, hcomp.formatted_eq]
    rfl
  · rw [hrun, contacted, if_pos h0]
    simp only [formatted_append, formatted_namenodeRequest]
    rfl

/-- **The failover policy** of every operation with valid arguments: it contacts the address
in use, after a rejection the other one, and then at most one datanode; it reports success
when a contacted namenode and the datanode stage after it accept, and `-1` otherwise. -/
theorem failover_policy (json : JsonC J) (hdfs : WebhdfsT) {call : Call}
    (hvalid : call.Valid) :
    (∃ datanodes : List Str, datanodes.length ≤ 1 ∧
      requests (run json hdfs call).actions
        = (contacted hdfs call).map .namenode ++ datanodes.map .datanode) ∧
    ((run json hdfs call).ret = call.success ↔
      ∃ k < (contacted hdfs call).length, ¬ call.Rejects (call.env.reply k) ∧
        call.DatanodeAccepts json (call.env.reply (k + 1))) ∧
    ((run json hdfs call).ret ≠ call.success → (run json hdfs call).ret = -1) := by
  obtain ⟨type, path, op, ⟨h0, ret, rest, hcomp, hrun⟩ | ⟨h0, h1, ret, rest, hcomp, hrun⟩ |
    ⟨h0, h1, hrun⟩⟩ := run_cases json hdfs hvalid
  · rw [hrun, contacted, if_neg h0]
    obtain ⟨datanodes, hlen, hsent⟩ := hcomp.sent_eq
    refine ⟨⟨datanodes, hlen, ?_⟩, ?_, hcomp.ret_or.resolve_left⟩
    · unfold requests
      rw [sent_namenodeRequest, hsent]
      rfl
    · refine hcomp.ret_iff.trans ⟨fun h => ⟨0, Nat.zero_lt_one, h0, h⟩, ?_⟩
      rintro ⟨k, hk, -, h⟩
      obtain rfl : k = 0 := Nat.lt_one_iff.mp hk
      exact h
  · rw [hrun, contacted, if_pos h0]
    obtain ⟨datanodes, hlen, hsent⟩ := hcomp.sent_eq
    refine ⟨⟨datanodes, hlen, ?_⟩, ?_, hcomp.ret_or.resolve_left⟩
    · rw [requests, List.append_assoc, sent_namenodeRequest, List.singleton_append,
        sent_clean, sent_namenodeRequest, hsent]
      rfl
    · refine hcomp.ret_iff.trans ⟨fun h => ⟨1, Nat.one_lt_two, h1, h⟩, ?_⟩
      rintro ⟨k, hk, hrej, h⟩
      have hk1 : k = 1 := by
        rcases Nat.le_one_iff_eq_zero_or_eq_one.mp (Nat.lt_succ_iff.mp hk) with rfl | rfl
        · exact absurd h0 hrej
        · rfl
      subst hk1
      exact h
  · rw [hrun, contacted, if_pos h0]
    refine ⟨⟨[], Nat.zero_le 1, ?_⟩, iff_of_false (Ne.symm (success_ne hvalid)) ?_, fun _ => rfl⟩
    · rw [requests, List.append_assoc, sent_namenodeRequest, List.singleton_append,
        sent_clean, List.append_assoc, sent_namenodeRequest]
      rfl
    · rintro ⟨k, hk, hrej, -⟩
      rcases Nat.le_one_iff_eq_zero_or_eq_one.mp (Nat.lt_succ_iff.mp hk) with rfl | rfl
      · exact hrej h0
      · exact hrej h1

/-! ### Concrete runs -/

/-- JSON values, as far as the runs below need them. -/
inductive Value
  | object (members : List (Str × Value))
  | string (text : Str)

/-- The answer of a server that the file exists. -/
def existsBody : Str :=
  "\x7b\"RemoteException\":\x7b\"exception\":\"FileAlreadyExistsException\"\x7d\x7d".toList

/-- The member `RemoteException` of that answer. -/
def existsException : Value :=
  .object [("exception".toList, .string "FileAlreadyExistsException".toList)]

/-- `json-c` on that answer. -/
def existsJson : JsonC Value where
  tokenerParse text :=
    if text = existsBody then some (.object [("RemoteException".toList, existsException)])
    else none
  objectGetEx
    | .object members, key => (members.find? fun member => member.1 = key).map (·.2)
    | .string _, _ => none
  getString
    | .object _ => []
    | .string text => text

/-- An answer with a status code, and possibly a `Location` and a body. -/
def Reply.ofCode (statusCode : ℤ) (location : Option Str) (body : Str) : Reply :=
  ⟨.done, statusCode, location, body, 0, []⟩

/-- No answer: the request fails with this `errno`. -/
def Reply.failed (errno : ℤ) (errorText : Str) : Reply := ⟨.error, 0, none, [], errno, errorText⟩

/-- Two namenodes. -/
def namenodes (i : ℕ) : HdfsAddress := if i = 0 then ⟨['a'], 50070⟩ else ⟨['b'], 50070⟩

/-- The first namenode does not answer, the second one creates the directory. -/
theorem second_namenode_answers :
    ∃ hdfs, webhdfsTCreate namenodes 2 (some ['u']) true true = some hdfs ∧
      (run existsJson hdfs (.createDir
        ⟨fun k => if k = 0 then .failed 110 [] else .ofCode 200 none [], true⟩
        (some ['/', 'a']))).ret = 0 := by
  refine ⟨_, rfl, ?_⟩
  have hvalid : (Call.createDir
      ⟨fun k => if k = 0 then .failed 110 [] else .ofCode 200 none [], true⟩
      (some ['/', 'a'])).Valid := ⟨['/', 'a'], rfl, by decide⟩
  refine (failover_policy existsJson _ hvalid).2.1.mpr ⟨1, ?_, by decide, trivial⟩
  exact Nat.one_lt_two

/-- The answer of a datanode that says so. -/
theorem existsBody_found : FileExists existsJson (.ofCode 403 none existsBody) := by
  have hbody : existsBody.takeWhile (· ≠ nul) = existsBody := by decide
  have hparse : existsJson.tokenerParse (existsBody.takeWhile (· ≠ nul))
      = some (.object [("RemoteException".toList, existsException)]) := by
    dsimp only [existsJson]
    exact if_pos hbody
  exact ⟨_, existsException, .string "FileAlreadyExistsException".toList, hparse, rfl, rfl, rfl⟩

/-- Creating a file that exists, without memory for the answer that says so. -/
def createExisting : Call :=
  .createFile
    ⟨fun k => if k = 0 then .ofCode 307 (some ['d']) [] else .ofCode 403 none existsBody, false⟩
    (some ['/', 'a'])

/-- The namenode accepts and the datanode says that the file exists, but the call fails. -/
theorem exists_without_memory :
    ∃ hdfs, webhdfsTCreate namenodes 2 (some ['u']) true true = some hdfs ∧
      createExisting.Valid ∧ ¬ createExisting.Rejects (createExisting.env.reply 0) ∧
      (createExisting.env.reply 1).status ≠ .error ∧
      (createExisting.env.reply 1).statusCode = 403 ∧
      FileExists existsJson (createExisting.env.reply 1) ∧
      (run existsJson hdfs createExisting).ret = -1 := by
  exact ⟨_, rfl, ⟨['/', 'a'], rfl, by decide⟩, by decide, by decide, rfl, existsBody_found, rfl⟩

/-! ## Clients with one address -/

/-- What `webhdfs_t_create` makes of its arguments; the whole user name is kept. -/
theorem create_spec {addr : ℕ → HdfsAddress} {num : ℤ} {user : Option Str}
    {malloc requestNew : Bool} (h : webhdfsTCreate addr num user malloc requestNew = some hdfs) :
    (num = 1 ∨ num = 2) ∧ hdfs.index_ = 0 ∧ user = some hdfs.user_ := by
  unfold webhdfsTCreate at h
  by_cases hnum : num > maxAddressNum ∨ num ≤ 0
  · rw [if_pos hnum] at h
    exact absurd h.symm (Option.some_ne_none _)
  · rw [if_neg hnum] at h
    unfold maxAddressNum at hnum
    cases user with
    | none => exact absurd h.symm (Option.some_ne_none _)
    | some user =>
      dsimp only at h
      split_ifs at h with huser
      obtain rfl := Option.some.inj h
      refine ⟨by omega, rfl, congrArg some (Eq.symm ?_)⟩
      apply List.take_of_length_le
      omega

/-- The index after a call whose first answer is not rejected. -/
theorem step_index (hnotrej : call.Valid → ¬ call.Rejects (call.env.reply 0)) :
    (step json hdfs call).2 = hdfs := by
  by_cases hvalid : call.Valid
  · obtain ⟨type, path, op, ⟨h0, ret, rest, hcomp, hrun⟩ | ⟨h0, -⟩ | ⟨h0, -⟩⟩ :=
      run_cases json hdfs hvalid
    · unfold step
      rw [hrun]
      rfl
    · exact absurd h0 (hnotrej hvalid)
    · exact absurd h0 (hnotrej hvalid)
  · unfold step
    rw [run_of_not_valid hvalid]
    rfl

theorem formatted_of_not_valid (hvalid : ¬ call.Valid) :
    formatted (run json hdfs call).actions = [] := by
  rw [run_of_not_valid hvalid]
  rfl

/-- Every URL of an executed call is formatted from one of the first `num` addresses. -/
def Configured (num : ℤ) (e : Event WebhdfsT Call Outcome) : Prop :=
  ∀ index ∈ formatted e.result.actions, (index : ℤ) < num

/-- Both addresses are within `MAX_ADDRESS_NUM`. -/
theorem configured_two (json : JsonC J) (hdfs : WebhdfsT) (call : Call) :
    ∀ index ∈ formatted (run json hdfs call).actions, (index : ℤ) < 2 := by
  intro index hindex
  by_cases hvalid : call.Valid
  · have hlt := hdfs.index_lt
    rw [formatted_run json hdfs hvalid, contacted] at hindex
    unfold maxAddressNum at hlt hindex
    split_ifs at hindex
    · rw [List.mem_cons, List.mem_singleton] at hindex
      omega
    · rw [List.mem_singleton] at hindex
      omega
  · rw [formatted_of_not_valid hvalid] at hindex
    exact absurd hindex List.not_mem_nil

/-- From the first address, a call stays with it unless the first answer is rejected. -/
theorem configured_one_iff (json : JsonC J) (hindex : hdfs.index_ = 0) (call : Call) :
    (∀ index ∈ formatted (run json hdfs call).actions, (index : ℤ) < 1) ↔
      (call.Valid → ¬ call.Rejects (call.env.reply 0)) := by
  by_cases hvalid : call.Valid
  · rw [formatted_run json hdfs hvalid, contacted, hindex]
    by_cases hrej : call.Rejects (call.env.reply 0)
    · rw [if_pos hrej]
      refine iff_of_false ?_ fun h => h hvalid hrej
      intro h
      have hone := h 1 (List.mem_cons_of_mem _ List.mem_cons_self)
      exact absurd hone (by decide)
    · rw [if_neg hrej]
      refine iff_of_true ?_ fun _ => hrej
      intro index h
      rw [List.mem_singleton.mp h]
      decide
  · rw [formatted_of_not_valid hvalid]
    exact iff_of_true (fun index h => absurd h List.not_mem_nil) fun h => absurd h hvalid

/-- **Configured addresses**: a client made with `num` addresses uses no other one in a run
exactly when `num` is two or no call of the run has its first answer rejected. -/
theorem configured_iff (json : JsonC J) {addr : ℕ → HdfsAddress} {num : ℤ}
    {user : Option Str} {malloc requestNew : Bool} {hdfs : WebhdfsT}
    (hcreate : webhdfsTCreate addr num user malloc requestNew = some hdfs) (calls : List Call) :
    (∀ e ∈ history (step json) hdfs calls, Configured num e) ↔
      (num = 2 ∨ ∀ call ∈ calls, call.Valid → ¬ call.Rejects (call.env.reply 0)) := by
  obtain ⟨hnum, hindex, -⟩ := create_spec hcreate
  rcases hnum with rfl | rfl
  · have hguard := forall_history_iff (step json) (I := fun hdfs => hdfs.index_ = 0)
      (G := fun _ call => call.Valid → ¬ call.Rejects (call.env.reply 0))
      (P := Configured 1) (fun hdfs call h => configured_one_iff json h call)
      (fun hdfs call h hg => by rw [step_index hg]; exact h) hindex calls
    rw [hguard, forall_call_iff (step json)
      (P := fun call => call.Valid → ¬ call.Rejects (call.env.reply 0))]
    exact ⟨Or.inr, fun h => h.resolve_left (by decide)⟩
  · refine iff_of_true ?_ (Or.inl rfl)
    rw [forall_mem_history_iff]
    exact fun pre call post _ => configured_two json _ call

/-- A single namenode that creates the directory. -/
theorem one_address_configured :
    ∃ hdfs, webhdfsTCreate namenodes 1 (some ['u']) true true = some hdfs ∧
      ∀ e ∈ history (step existsJson) hdfs
        [.createDir ⟨fun _ => .ofCode 200 none [], true⟩ (some ['/', 'a'])], Configured 1 e := by
  obtain ⟨hdfs, hcreate⟩ : ∃ hdfs,
      webhdfsTCreate namenodes 1 (some ['u']) true true = some hdfs := ⟨_, rfl⟩
  refine ⟨hdfs, hcreate, (configured_iff existsJson hcreate _).mpr ?_⟩
  apply Or.inr
  intro call hcall _
  rw [List.mem_singleton.mp hcall]
  decide

/-- A single namenode that does not answer: the second request goes to `address_[1]`. -/
theorem one_address_not_configured :
    ∃ hdfs, webhdfsTCreate namenodes 1 (some ['u']) true true = some hdfs ∧
      ¬ ∀ e ∈ history (step existsJson) hdfs
        [.createDir ⟨fun _ => .failed 111 [], true⟩ (some ['/', 'a'])], Configured 1 e := by
  refine ⟨_, rfl, ?_⟩
  intro h
  have hone := h _ List.mem_cons_self 1 (by decide)
  exact absurd hone (by decide)

end Webhdfs
