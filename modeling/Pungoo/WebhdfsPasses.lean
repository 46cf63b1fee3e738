/-
# The passes of an operation, and the handle they share

Every pass of the loop over the addresses has the same shape: the namenode request, in
`create_file` and `write` perhaps the request to the datanode, some memory handling, and
`ghttp_clean`.  `actions_of_valid` writes the actions of a call as one or two such passes.

* `Handle` : what has been put into the handle since it was made or cleaned;
* `handle_hygiene` : over every run of the operations, a new request finds the handle
  fresh, and every operation leaves it so.
-/
import Pungoo.WebhdfsFailover

namespace Webhdfs

open Run

/-! ## The shape of a pass -/

/-- The action only concerns memory and JSON values. -/
def Action.Quiet : Action → Prop
  | .malloc _ | .free | .jsonParse _ | .jsonPut => True
  | _ => False

/-- The `Location` that the operation follows after the `k`-th answer. -/
def Call.redirect : Call → ℕ → Option Str
  | .createFile env _, k | .write env _ _ _, k => (env.reply k).redirect
  | .deleteFile _ _, _ | .createDir _ _, _ | .deleteDir _ _, _ => none

/-- The body of the request to a datanode. -/
def Call.body : Call → Option Str
  | .write _ _ buf len => some ((buf.getD []).take len.toNat)
  | .createFile _ _ | .deleteFile _ _ | .createDir _ _ | .deleteDir _ _ => none

/-- The request to the datanode after the `k`-th answer, if there is one. -/
def Call.followUp (call : Call) (k : ℕ) : List Action :=
  (call.redirect k).elim [] fun location => redirectedRequest location call.type call.body

/-- A pass that gets the `k`-th answer from the namenode; `memory` is what happens between
the last answer and the final `ghttp_clean`. -/
def WebhdfsT.passActions (hdfs : WebhdfsT) (call : Call) (k : ℕ) (memory : List Action) :
    List Action :=
  hdfs.namenodeRequest call.type call.path call.op
    ++ (call.followUp k ++ (memory ++ [.clean]))

variable {J : Type*} {json : JsonC J} {hdfs : WebhdfsT} {call : Call} {k : ℕ}
  {actions : List Action}

/-- The actions end with `ghttp_clean` and are quiet before it. -/
def EndsClean (actions : List Action) : Prop :=
  ∃ memory : List Action, (∀ a ∈ memory, a.Quiet) ∧ actions = memory ++ [.clean]

theorem endsClean_clean : EndsClean [.clean] := ⟨[], by simp, rfl⟩

/-- The five exits of the 403 branch all clean the handle. -/
theorem alreadyExists_endsClean (json : JsonC J) (malloc : Bool) (reply : Reply) :
    EndsClean (alreadyExists json malloc reply).2 := by
  have hreleased : EndsClean [.malloc true, .jsonParse true, .jsonPut, .free, .clean] :=
    ⟨[.malloc true, .jsonParse true, .jsonPut, .free], by simp [Action.Quiet], rfl⟩
  unfold alreadyExists
  split_ifs
  · exact ⟨[.malloc false], by simp [Action.Quiet], rfl⟩
  · split
    · exact ⟨[.malloc true, .jsonParse false, .free], by simp [Action.Quiet], rfl⟩
    · split
      · exact hreleased
      · split
        · exact hreleased
        · split_ifs
          · exact ⟨[.malloc true, .jsonParse true], by simp [Action.Quiet], rfl⟩
          · exact hreleased

/-- The datanode stage of `webhdfs_create_file` ends with a clean handle. -/
theorem createFileDatanode_endsClean (json : JsonC J) (malloc : Bool) (reply : Reply) :
    EndsClean (createFileDatanode json malloc reply).2 := by
  unfold createFileDatanode
  split_ifs
  · exact endsClean_clean
  · exact alreadyExists_endsClean json malloc reply
  · exact endsClean_clean
  · exact endsClean_clean

/-- The datanode stage of `webhdfs_write` ends with a clean handle. -/
theorem writeDatanode_endsClean (len : ℤ) (reply : Reply) :
    EndsClean (writeDatanode len reply).2 := by
  unfold writeDatanode
  split_ifs <;> exact endsClean_clean

/-- The actions behind a redirect: one request, then those of the datanode stage. -/
theorem followRedirect_actions {env : Env} {type : GhttpType} {body : Option Str}
    {datanode : Reply → ℤ × List Action} (hstage : ∀ reply, EndsClean (datanode reply).2)
    {ret : ℤ} {rest : List Action}
    (h : followRedirect env type body datanode k = some (ret, rest)) :
    ∃ location tail, (env.reply k).redirect = some location ∧ EndsClean tail ∧
      rest = redirectedRequest location type body ++ tail := by
  obtain ⟨location, hloc, -, rfl⟩ := redirect_of_followRedirect h
  exact ⟨location, _, hloc, hstage _, rfl⟩

/-- An accepted answer is followed by the rest of a pass. -/
theorem answer_actions {ret : ℤ} {rest : List Action}
    (h : call.answer json k = some (ret, rest)) :
    ∃ tail, EndsClean tail ∧ rest = call.followUp k ++ tail := by
  cases call with
  | createFile env filename =>
    obtain ⟨location, tail, hloc, htail, rfl⟩ :=
      followRedirect_actions (createFileDatanode_endsClean json env.malloc) h
    refine ⟨tail, htail, ?_⟩
    rw [Call.followUp, Call.redirect, hloc]
    rfl
  | write env filename buf len =>
    obtain ⟨location, tail, hloc, htail, rfl⟩ :=
      followRedirect_actions (writeDatanode_endsClean len) h
    refine ⟨tail, htail, ?_⟩
    rw [Call.followUp, Call.redirect, hloc]
    rfl
  | deleteFile env path | createDir env path | deleteDir env path =>
    rw [Call.answer, answered] at h
    split_ifs at h
    obtain ⟨-, rfl⟩ := Prod.mk.inj (Option.some.inj h)
    exact ⟨[.clean], endsClean_clean, rfl⟩

/-- After a rejection no request to a datanode follows. -/
theorem redirect_of_rejects (h : call.Rejects (call.env.reply k)) : call.redirect k = none := by
  cases call with
  | createFile env filename => exact redirect_eq_none_iff.mpr h
  | write env filename buf len => exact redirect_eq_none_iff.mpr h
  | deleteFile | createDir | deleteDir => rfl

/-- A pass that is not redirected sends one request. -/
theorem passActions_of_rejects (h : call.Rejects (call.env.reply k)) :
    hdfs.namenodeRequest call.type call.path call.op ++ [.clean] = hdfs.passActions call k [] := by
  rw [WebhdfsT.passActions, Call.followUp, redirect_of_rejects h]
  rfl

/-- **The passes of a valid call**: one from the address in use, and after a rejection a
second one from the other address. -/
theorem actions_of_valid (json : JsonC J) (hdfs : WebhdfsT) (hvalid : call.Valid) :
    ∃ memory : List Action, (∀ a ∈ memory, a.Quiet) ∧
      (run json hdfs call).actions =
        if call.Rejects (call.env.reply 0) then
          hdfs.passActions call 0 [] ++ hdfs.switchAddress.passActions call 1 memory
        else hdfs.passActions call 0 memory := by
  rw [run_of_valid json hdfs hvalid, tryAddresses_pass]
  cases h0 : call.answer json 0 with
  | some stage =>
    have hnotrej : ¬ call.Rejects (call.env.reply 0) := by
      intro hrej
      exact Option.some_ne_none _ (h0.symm.trans ((answer_eq_none_iff 0).mpr hrej))
    obtain ⟨ret, rest⟩ := stage
    obtain ⟨_, ⟨memory, hquiet, rfl⟩, rfl⟩ := answer_actions h0
    refine ⟨memory, hquiet, ?_⟩
    rw [if_neg hnotrej]
    rfl
  | none =>
    have hrej := (answer_eq_none_iff 0).mp h0
    rw [passActions_of_rejects hrej]
    cases h1 : call.answer json 1 with
    | some stage =>
      obtain ⟨ret, rest⟩ := stage
      obtain ⟨_, ⟨memory, hquiet, rfl⟩, rfl⟩ := answer_actions h1
      refine ⟨memory, hquiet, ?_⟩
      rw [if_pos hrej]
      rfl
    | none =>
      refine ⟨[], by simp, ?_⟩
      rw [if_pos hrej, passActions_of_rejects ((answer_eq_none_iff 1).mp h1), List.append_nil]

/-! ## The handle -/

/-- What the client has put into the handle since `ghttp_request_new` or the last
`ghttp_clean`.  This is a log of the client's own calls: what `ghttp_clean` does inside, or what
a refused `ghttp_set_uri` leaves behind, is not part of it. -/
structure Handle where
  uri : Option (List Char)
  type : Option GhttpType
  timeout : Option Str
  body : Option Str
  prepared : Bool
  processed : Bool
  deriving DecidableEq

/-- Nothing has been put into the handle. -/
def Handle.fresh : Handle := ⟨none, none, none, none, false, false⟩

/-- The effect of an action on the log. -/
def Handle.act (handle : Handle) : Action → Handle
  | .setUri buffer => { handle with uri := some buffer }
  | .setType type => { handle with type := some type }
  | .setTimeout value => { handle with timeout := some value }
  | .setBody body => { handle with body := some body }
  | .prepare => { handle with prepared := true }
  | .process => { handle with processed := true }
  | .clean => .fresh
  | _ => handle

/-- The effect of the actions of a call, or of several calls. -/
def Handle.run (handle : Handle) (actions : List Action) : Handle :=
  actions.foldl Handle.act handle

theorem Handle.run_append (handle : Handle) (actions rest : List Action) :
    handle.run (actions ++ rest) = (handle.run actions).run rest :=
  List.foldl_append

/-- Every request that the actions start finds the handle fresh. -/
def Hygienic (handle : Handle) (actions : List Action) : Prop :=
  ∀ pre buffer post, actions = pre ++ .setUri buffer :: post → handle.run pre = .fresh

/-- Hygiene of actions one after the other. -/
theorem hygienic_append {handle : Handle} {rest : List Action} (h : Hygienic handle actions)
    (hrest : Hygienic (handle.run actions) rest) : Hygienic handle (actions ++ rest) := by
  intro pre buffer post heq
  rcases List.append_eq_append_iff.mp heq with ⟨mid, rfl, hmid⟩ | ⟨mid, hmid, hpost⟩
  · rw [Handle.run_append]
    exact hrest mid buffer post hmid
  · cases mid with
    | nil =>
      rw [List.append_nil] at hmid
      subst hmid
      exact hrest [] buffer post hpost.symm
    | cons a mid =>
      obtain ⟨rfl, -⟩ := List.cons.inj hpost
      exact h pre buffer mid hmid

/-- Actions that start no request. -/
theorem hygienic_of_no_uri {handle : Handle} (h : ∀ buffer, .setUri buffer ∉ actions) :
    Hygienic handle actions := by
  intro pre buffer post heq
  exact absurd (heq ▸ List.mem_append_right pre List.mem_cons_self) (h buffer)

/-- From a fresh handle, the actions are hygienic and leave it fresh. -/
structure Tidy (actions : List Action) : Prop where
  hygienic : Hygienic .fresh actions
  run_eq : Handle.fresh.run actions = .fresh

theorem tidy_nil : Tidy [] := ⟨hygienic_of_no_uri fun _ => List.not_mem_nil, rfl⟩

theorem Tidy.append {rest : List Action} (h : Tidy actions) (hrest : Tidy rest) :
    Tidy (actions ++ rest) := by
  refine ⟨hygienic_append h.hygienic ?_, ?_⟩
  · rw [h.run_eq]
    exact hrest.hygienic
  · rw [Handle.run_append, h.run_eq, hrest.run_eq]

/-- A request starts with its only `ghttp_set_uri`. -/
theorem hygienic_request (buffer : List Char) (type : GhttpType) (body : Option Str) :
    Hygienic .fresh (request buffer type body) := by
  intro pre buffer' post heq
  cases pre with
  | nil => rfl
  | cons a pre =>
    have hmem : Action.setUri buffer' ∈ pre ++ .setUri buffer' :: post :=
      List.mem_append_right pre List.mem_cons_self
    rw [List.cons_append] at heq
    rw [← (List.cons.inj heq).2] at hmem
    cases body <;> simp at hmem

/-- One request, what is done before it is cleaned up, and `ghttp_clean`. -/
theorem tidy_request {buffer : List Char} {type : GhttpType} {body : Option Str}
    (h : ∀ buffer, .setUri buffer ∉ actions) :
    Tidy (request buffer type body ++ actions ++ [.clean]) := by
  refine ⟨?_, ?_⟩
  · rw [List.append_assoc]
    apply hygienic_append (hygienic_request buffer type body)
    apply hygienic_of_no_uri
    intro buffer' hmem
    rcases List.mem_append.mp hmem with hmem | hmem
    · exact h buffer' hmem
    · exact absurd (List.mem_singleton.mp hmem) Action.noConfusion
  · rw [Handle.run_append]
    rfl

theorem Tidy.format {index : ℕ} {url : Str} (h : Tidy actions) :
    Tidy (.format index url :: actions) := by
  have hformat : Tidy [.format index url] := ⟨hygienic_of_no_uri fun _ hmem =>
    absurd (List.mem_singleton.mp hmem) Action.noConfusion, rfl⟩
  exact hformat.append h

/-- Quiet actions set no URL. -/
theorem not_mem_of_quiet (h : ∀ a ∈ actions, a.Quiet) (buffer : List Char) :
    .setUri buffer ∉ actions := fun hmem => h _ hmem

/-- Every pass is tidy: the request of the namenode is cleaned before the one of the
datanode, and that one at the end. -/
theorem tidy_passActions (hdfs : WebhdfsT) (call : Call) (k : ℕ)
    (hquiet : ∀ a ∈ actions, a.Quiet) : Tidy (hdfs.passActions call k actions) := by
  unfold WebhdfsT.passActions WebhdfsT.namenodeRequest Call.followUp
  rw [List.cons_append]
  apply Tidy.format
  cases call.redirect k with
  | none =>
    rw [Option.elim_none, List.nil_append, ← List.append_assoc]
    exact tidy_request (not_mem_of_quiet hquiet)
  | some location =>
    have hfirst : Tidy (request (snprintf maxUrlLen (hdfs.url call.path call.op)) call.type none
        ++ [.redirect location] ++ [.clean]) := by
      apply tidy_request
      intro buffer hmem
      exact absurd (List.mem_singleton.mp hmem) Action.noConfusion
    have hsecond := (tidy_request (not_mem_of_quiet hquiet) :
      Tidy (request (strncpy maxUrlLen location) call.type call.body ++ actions ++ [.clean]))
    have hboth := hfirst.append hsecond
    rw [Option.elim_some, redirectedRequest]
    simpa only [List.append_assoc, List.cons_append, List.nil_append] using hboth

/-- Every call is tidy, whatever it does. -/
theorem tidy_run (json : JsonC J) (hdfs : WebhdfsT) (call : Call) :
    Tidy (Webhdfs.run json hdfs call).actions := by
  by_cases hvalid : call.Valid
  · obtain ⟨memory, hquiet, hactions⟩ := actions_of_valid json hdfs hvalid
    rw [hactions]
    split_ifs
    · exact (tidy_passActions hdfs call 0 (by simp)).append
        (tidy_passActions hdfs.switchAddress call 1 hquiet)
    · exact tidy_passActions hdfs call 0 hquiet
  · rw [run_of_not_valid hvalid]
    exact tidy_nil

/-! ## Runs -/

/-- One call as a step, with a `json-c` of its own, so that the JSON outcomes of two calls
are independent of each other. -/
def stepWith (hdfs : WebhdfsT) (call : JsonC J × Call) : Outcome × WebhdfsT :=
  step call.1 hdfs call.2

/-- Everything a run does, in order. -/
def runActions (hdfs : WebhdfsT) (calls : List (JsonC J × Call)) : List Action :=
  (history stepWith hdfs calls).flatMap fun e => e.result.actions

/-- So is every run of calls. -/
theorem tidy_runActions (hdfs : WebhdfsT) (calls : List (JsonC J × Call)) :
    Tidy (runActions hdfs calls) := by
  induction calls generalizing hdfs with
  | nil => exact tidy_nil
  | cons call calls ih =>
    unfold runActions
    rw [history_cons, List.flatMap_cons]
    exact (tidy_run call.1 hdfs call.2).append (ih _)

/-- **Handle hygiene**: in every run of the operations, with any outcomes, each
`ghttp_set_uri` finds the handle fresh or cleaned, and so is it after each operation. -/
theorem handle_hygiene (hdfs : WebhdfsT) (calls : List (JsonC J × Call)) :
    Hygienic .fresh (runActions hdfs calls) ∧
      ∀ done rest, calls = done ++ rest → Handle.fresh.run (runActions hdfs done) = .fresh := by
  refine ⟨(tidy_runActions hdfs calls).hygienic, ?_⟩
  intro done rest _
  exact (tidy_runActions hdfs done).run_eq

end Webhdfs
