/-
# What `webhdfs_create_file` acquires and releases

To read the answer 403 of a datanode, the operation copies the body to memory from `malloc`
and parses it to a JSON object.  `Held` says which of the two it has at the moment; what it
has not acquired it must not release, and what it has it must not acquire again.

* `Released` : all that the actions acquire is released exactly once;
* `createFile_released_iff` : when that is so for a call.
-/
import Pungoo.WebhdfsFailover

namespace Webhdfs

/-- What `webhdfs_create_file` has acquired and not released. -/
structure Held where
  response : Bool
  respObj : Bool
  deriving DecidableEq, Repr

/-- Nothing is acquired. -/
def Held.nothing : Held := ⟨false, false⟩

/-- The effect of an action; `none` when something is released that is not held, or acquired
over something that is. -/
def Held.act (held : Held) : Action → Option Held
  | .malloc true => if held.response then none else some { held with response := true }
  | .free => if held.response then some { held with response := false } else none
  | .jsonParse true => if held.respObj then none else some { held with respObj := true }
  | .jsonPut => if held.respObj then some { held with respObj := false } else none
  | _ => some held

/-- The effect of actions, one after the other. -/
def Held.run (held : Held) (actions : List Action) : Option Held := actions.foldlM Held.act held

/-- All that is acquired is released, once. -/
def Released (actions : List Action) : Prop := Held.nothing.run actions = some Held.nothing

instance (actions : List Action) : Decidable (Released actions) :=
  inferInstanceAs (Decidable (_ = _))

variable {J : Type*} {json : JsonC J} {env : Env} {hdfs : WebhdfsT} {actions rest : List Action}

/-! ## Parts of a call -/

/-- Actions that keep what is held do not matter. -/
theorem released_append (h : Released actions) : Released (actions ++ rest) ↔ Released rest := by
  unfold Released at h ⊢
  unfold Held.run at h ⊢
  rw [List.foldlM_append, h]
  rfl

theorem released_request (buffer : List Char) (type : GhttpType) (body : Option Str) :
    Released (request buffer type body) := by
  cases body with
  | none => rfl
  | some body => rfl

theorem released_namenodeRequest (type : GhttpType) (path op : Str) :
    Released (hdfs.namenodeRequest type path op) :=
  released_request (snprintf maxUrlLen (hdfs.url path op)) type none

theorem released_redirectedRequest (location : Str) (type : GhttpType) (body : Option Str) :
    Released (redirectedRequest location type body) :=
  released_request (strncpy maxUrlLen location) type body

/-- The exits of the 403 branch release what they have, but the one that reports success. -/
theorem alreadyExists_released (json : JsonC J) (malloc : Bool) (reply : Reply) :
    Released (alreadyExists json malloc reply).2 ↔ (alreadyExists json malloc reply).1 ≠ 0 := by
  unfold alreadyExists
  split_ifs
  · decide
  · split
    · decide
    · split
      · decide
      · split
        · decide
        · split_ifs
          · decide
          · decide

/-- The answer of a datanode is 403 and says that the file exists, and there is memory to read
it. -/
def FoundExisting (json : JsonC J) (malloc : Bool) (reply : Reply) : Prop :=
  reply.status ≠ .error ∧ reply.statusCode = 403 ∧ FileExists json reply ∧ malloc = true

theorem createFileDatanode_released (json : JsonC J) (malloc : Bool) (reply : Reply) :
    Released (createFileDatanode json malloc reply).2 ↔ ¬ FoundExisting json malloc reply := by
  have hclean : Released [.clean] := rfl
  unfold createFileDatanode FoundExisting
  split_ifs with herr hcode hexists
  · exact iff_of_true hclean fun h => h.1 herr
  · rw [alreadyExists_released, Ne, (alreadyExists_settles json malloc reply).ret_iff]
    exact not_congr ⟨fun h => ⟨herr, hexists, h⟩, fun h => h.2.2⟩
  · exact iff_of_true hclean fun h => hexists h.2.1
  · refine iff_of_true hclean fun h => ?_
    rw [not_not.mp hcode] at h
    exact absurd h.2.1 (by decide)

/-! ## Whole calls -/

/-- The answer of the datanode, if a namenode redirects to one: the second namenode is asked
when the first one does not. -/
def Env.datanodeReply (env : Env) : Option Reply :=
  if (env.reply 0).redirect ≠ none then some (env.reply 1)
  else if (env.reply 1).redirect ≠ none then some (env.reply 2)
  else none

/-- A pass with a redirect releases what its datanode stage releases. -/
theorem released_pass {path op location : Str} {reply : Reply} :
    Released (hdfs.namenodeRequest .put path op ++ (redirectedRequest location .put none
        ++ (createFileDatanode json env.malloc reply).2)) ↔
      ¬ FoundExisting json env.malloc reply := by
  rw [released_append (released_namenodeRequest .put path op),
    released_append (released_redirectedRequest location .put none), createFileDatanode_released]

/-- A call with valid arguments. -/
theorem createFile_released (json : JsonC J) (env : Env) (hdfs : WebhdfsT) {text : Str}
    (htext : 1 ≤ text.length) :
    Released (webhdfsCreateFile json env (some hdfs) (some text)).actions ↔
      ¬ ∃ reply, env.datanodeReply = some reply ∧ FoundExisting json env.malloc reply := by
  rw [webhdfsCreateFile, if_neg (not_lt.mpr htext), tryAddresses_pass]
  unfold Env.datanodeReply
  cases h0 : (env.reply 0).redirect with
  | some location =>
    rw [followRedirect_eq_some h0, if_pos (Option.some_ne_none location)]
    dsimp only
    rw [released_pass]
    simp only [Option.some.injEq, exists_eq_left']
  | none =>
    have hfirst : Released (hdfs.namenodeRequest .put text "CREATE".toList ++ [.clean]) :=
      (released_append (released_namenodeRequest .put text _)).mpr rfl
    rw [followRedirect_eq_none_iff.mpr h0, if_neg (not_not.mpr rfl)]
    dsimp only
    cases h1 : (env.reply 1).redirect with
    | some location =>
      rw [followRedirect_eq_some h1, if_pos (Option.some_ne_none location)]
      dsimp only
      rw [released_append hfirst, released_pass]
      simp only [Option.some.injEq, exists_eq_left']
    | none =>
      rw [followRedirect_eq_none_iff.mpr h1, if_neg (not_not.mpr rfl)]
      dsimp only
      rw [released_append hfirst, List.append_nil,
        released_append (released_namenodeRequest .put text _)]
      refine iff_of_true rfl ?_
      rintro ⟨reply, hr, -⟩
      exact Option.some_ne_none reply hr.symm

/-- **What is acquired is released** by `webhdfs_create_file`, exactly once, unless it is
called with valid arguments, is redirected to a datanode and finds there that the file exists. -/
theorem createFile_released_iff (json : JsonC J) (env : Env) (hdfs : Option WebhdfsT)
    (filename : Option Str) :
    Released (webhdfsCreateFile json env hdfs filename).actions ↔
      ¬ (hdfs ≠ none ∧ (∃ text, filename = some text ∧ 1 ≤ text.length) ∧
        ∃ reply, env.datanodeReply = some reply ∧ FoundExisting json env.malloc reply) := by
  cases hdfs with
  | none => exact iff_of_true rfl fun h => h.1 rfl
  | some hdfs =>
    cases filename with
    | none =>
      refine iff_of_true rfl ?_
      rintro ⟨-, ⟨text, htext, -⟩, -⟩
      exact Option.some_ne_none text htext.symm
    | some text =>
      rcases Nat.lt_or_ge text.length 1 with hshort | hlong
      · rw [webhdfsCreateFile, if_pos hshort]
        refine iff_of_true rfl ?_
        rintro ⟨-, ⟨text', htext', hlong⟩, -⟩
        rw [← Option.some.inj htext'] at hlong
        omega
      · rw [createFile_released json env hdfs hlong]
        refine not_congr ⟨fun h => ⟨Option.some_ne_none hdfs, ⟨text, rfl, hlong⟩, h⟩, ?_⟩
        exact fun h => h.2.2

/-- A file that exists: the copy of the answer and its JSON object are held at the end. -/
theorem createFile_leaks :
    ∃ hdfs, webhdfsTCreate namenodes 2 (some ['u']) true true = some hdfs ∧
      ¬ Released (webhdfsCreateFile existsJson
        ⟨fun k => if k = 0 then .ofCode 307 (some ['d']) [] else .ofCode 403 none existsBody, true⟩
        (some hdfs) (some ['/', 'a'])).actions := by
  refine ⟨_, rfl, ?_⟩
  rw [createFile_released existsJson _ _ (by decide), not_not]
  exact ⟨_, rfl, by decide, rfl, existsBody_found, rfl⟩

end Webhdfs
