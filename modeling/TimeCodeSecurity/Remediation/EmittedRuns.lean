import TimeCodeSecurity.Remediation.EmittedCalls
import TimeCodeSecurity.Remediation.RestKept

/-! # Emitted calls that run

Where the statement ran before, the emitted call runs in its place exactly when the module it names is bound,
the arguments that were kept are not bound to other parameters, and the statement takes a result of the new
kind.
-/
namespace TimeCodeSecurity.Remediation
open Py Signatures
set_option autoImplicit false

namespace Point

variable (pt : Point)

def formerKind : Former → Option Kind
  | .call e => pt.result e
  | .digestOf e attr =>
    if pt.result e = some .hash then some (if attr = "hexdigest" then .text else .bytes) else none
  | .text => some .text

def RanBefore (w : Swap) : Prop := ∃ k, pt.formerKind w.former = some k ∧ pt.takes k

def RunsAfter (w : Swap) : Prop := ∃ k, pt.result w.emitted = some k ∧ pt.takes k

def PasswordFits : Expr → Prop
  | .call _ _ (password :: _) _ => pt.positional [password] ≠ [] ∧ pt.takes .bytes
  | _ => False

/-- When the emitted call runs. -/
def Fits : Rewriting → Former → Prop
  | .eval, .call (.call _ _ args keywords) =>
    pt.bound "ast" = some (.module "ast") ∧ (pt.positional args).length = 1 ∧ pt.named keywords = []
  | .credentials, _ => pt.bound "os" = some (.module "os")
  | .yaml, .call (.call _ _ args keywords) =>
    (pt.positional args).length ≤ 1 ∧
      "Loader" ∉ (pt.named (keywords.filter fun k => k.arg ≠ some "Loader")).map Prod.fst
  | .passwordHash, .call e | .passwordHash, .digestOf e _ => pt.PasswordFits e
  | .tempfile, .call (.call _ _ args _) => (pt.positional args).length ≤ 1 ∧ pt.takes .file
  | _, _ => False

end Point

/-! ## Signatures -/

section
variable {args : List Value} {keywords : List (String × Value)}

theorem accepts_literalEval_iff (h : Accepts evalCallee.signature evalCallee.ok args keywords) :
    Accepts literalEval.signature literalEval.ok args keywords ↔ args.length = 1 ∧ keywords = [] := by
  cases args with
  | nil => exact absurd (h.given "source" (by decide)) (h.not_mem (by decide))
  | cons v vs =>
    constructor
    · intro hnew
      have hlen : vs.length = 0 := by
        have hle := hnew.arity
        simp [literalEval] at hle
        simp [hle]
      exact ⟨by simp [hlen], hnew.eq_nil (by simp [Signature.byName, literalEval, hlen])⟩
    · rintro ⟨hlen, rfl⟩
      obtain rfl := List.eq_nil_of_length_eq_zero (Nat.succ.inj hlen)
      exact ⟨by simp [literalEval], by simp, by simp, by simp [Signature.owed, literalEval], fun _ _ => rfl,
        fun _ _ => rfl⟩

theorem accepts_safeLoad_iff {kept : List (String × Value)}
    (h : Accepts yamlLoad.signature yamlLoad.ok args keywords) (hsub : List.Sublist kept keywords)
    (hrest : ∀ x ∈ keywords.map Prod.fst, x ≠ "Loader" → x ∈ kept.map Prod.fst) :
    Accepts yamlSafeLoad.signature yamlSafeLoad.ok args kept ↔
      args.length ≤ 1 ∧ "Loader" ∉ kept.map Prod.fst := by
  constructor
  · intro hnew
    refine ⟨hnew.arity, hnew.not_mem ?_⟩
    match args with
    | [] => decide
    | _ :: _ => simp [Signature.byName, yamlSafeLoad]
  · rintro ⟨hlen, hloader⟩
    refine ⟨hlen, h.distinct.sublist (hsub.map _), fun x hx => ?_, fun x hx => ?_, fun _ _ => rfl, fun _ _ => rfl⟩
    · have hknown := h.known x ((hsub.map _).subset hx)
      have hne : x ≠ "Loader" := fun heq => hloader (heq ▸ hx)
      match args with
      | [] =>
        have hor : x = "stream" ∨ x = "Loader" := by simpa [Signature.byName, yamlLoad, withDefault] using hknown
        rw [hor.resolve_right hne]
        decide
      | [_] => exact absurd (by simpa [Signature.byName, yamlLoad, withDefault] using hknown) hne
    · match args with
      | [] =>
        have heq : x = "stream" := by simpa [Signature.owed, yamlSafeLoad] using hx
        subst heq
        exact hrest "stream" (h.given "stream" (by decide)) (by decide)
      | [_] => simp [Signature.owed, yamlSafeLoad] at hx

theorem ok_namedTemporaryFile_of_mktemp {x : String} {v : Value} (hx : x ∈ ["suffix", "prefix", "dir"])
    (hold : mktemp.ok x v = true) : namedTemporaryFile.ok x v = true := by
  simp only [List.mem_cons, List.not_mem_nil, or_false] at hx
  revert hold
  rcases hx with rfl | rfl | rfl <;> cases v <;>
    simp [mktemp, namedTemporaryFile, isStr, isNone, isObject, isBytes]

theorem accepts_namedTemporaryFile_iff (h : Accepts mktemp.signature mktemp.ok args keywords) :
    Accepts namedTemporaryFile.signature namedTemporaryFile.ok args keywords ↔ args.length ≤ 1 := by
  constructor
  · intro hnew
    by_contra hlen
    match args with
    | [] => simp at hlen
    | [_] => simp at hlen
    | a :: b :: vs =>
      have hold := h.positional ("prefix", b) (by simp [mktemp, withDefault])
      have hint := hnew.positional ("buffering", b) (by simp [namedTemporaryFile, withDefault])
      cases b <;> simp [mktemp, namedTemporaryFile, isStr, isInt, Value.asInt] at hold hint
  · intro hlen
    have hkeyword : ∀ k ∈ keywords, k.1 ∈ ["suffix", "prefix", "dir"] →
        namedTemporaryFile.ok k.1 k.2 = true :=
      fun k hk hx => ok_namedTemporaryFile_of_mktemp hx (h.keyword k hk)
    match args with
    | [] =>
      have hknown : ∀ x ∈ keywords.map Prod.fst, x ∈ ["suffix", "prefix", "dir"] := h.known
      refine ⟨by simp, h.distinct, fun x hx => ?_, nofun, by simp, fun k hk => ?_⟩
      · have hsub : ["suffix", "prefix", "dir"] ⊆ namedTemporaryFile.signature.byName 0 := by decide
        exact hsub (hknown x hx)
      · exact hkeyword k hk (hknown k.1 (List.mem_map_of_mem hk))
    | [a] =>
      have hknown : ∀ x ∈ keywords.map Prod.fst, x ∈ ["prefix", "dir"] := h.known
      refine ⟨by simp [namedTemporaryFile], h.distinct, fun x hx => ?_, ?_, fun p hp => ?_, fun k hk => ?_⟩
      · have hsub : ["prefix", "dir"] ⊆ namedTemporaryFile.signature.byName 1 := by decide
        exact hsub (hknown x hx)
      · exact fun x hx => absurd hx (by simp [Signature.owed, namedTemporaryFile, withDefault])
      · have hold := h.positional ("suffix", a) (by simp [mktemp, withDefault])
        have hp : p = ("mode", a) := by simpa [namedTemporaryFile, withDefault] using hp
        subst hp
        simpa [mktemp, namedTemporaryFile] using hold
      · exact hkeyword k hk (List.mem_cons_of_mem _ (hknown k.1 (List.mem_map_of_mem hk)))

theorem accepts_scrypt_iff (h : ∀ v ∈ args, isBytes v = true) (hlen : args.length ≤ 1) :
    Accepts scrypt.signature scrypt.ok args
      [("salt", .bytes saltPlaceholder), ("n", .int 16384), ("r", .int 8), ("p", .int 1)] ↔ args ≠ [] := by
  constructor
  · rintro hnew rfl
    exact absurd (hnew.given "password" (by decide)) (by decide)
  · intro hne
    match args with
    | [v] =>
      refine ⟨by simp [scrypt], by decide, by simp [Signature.byName, scrypt, withDefault],
        by simp [Signature.owed, scrypt, withDefault], fun p hp => ?_, by decide⟩
      have hp : p = ("password", v) := by simpa [scrypt] using hp
      subst hp
      exact h v List.mem_cons_self

end

namespace Point

variable {pt : Point}

theorem result_eq_some_iff (pos : Pos) {func : Expr} {args : List Expr} {keywords : List (Keyword Expr)} {k : Kind} :
    pt.result (.call pos func args keywords) = some k ↔
      ∃ c, pt.callee func = some c ∧ Accepts c.signature c.ok (pt.positional args) (pt.named keywords) ∧
        c.result = k := by
  rw [result, Option.bind_eq_some_iff]
  refine exists_congr fun c => and_congr_right fun _ => ?_
  split
  · next h => exact ⟨fun hk => ⟨h, Option.some.inj hk⟩, fun hk => congrArg some hk.2⟩
  · next h => exact ⟨nofun, fun hk => absurd hk.1 h⟩

theorem callee_attr_eq_some_iff {pos p : Pos} {root name : String} {ctx ctx' : Ctx} {c : Callee} :
    pt.callee (.attr pos (.name p root ctx) name ctx') = some c ↔
      ∃ m, pt.bound root = some (.module m) ∧ moduleFunction m name = some c := by
  rw [callee]
  split
  · next m hm => exact ⟨fun h => ⟨m, hm, h⟩, fun ⟨m', hm', h⟩ => by rw [hm] at hm'; cases hm'; exact h⟩
  · next hno => exact ⟨nofun, fun ⟨m, hm, _⟩ => absurd hm (hno m)⟩

theorem runs_iff {pos p q : Pos} {root name : String} {ctx ctx' : Ctx} {args : List Expr}
    {keywords : List (Keyword Expr)} {c : Callee}
    (howner : ∀ m c', moduleFunction m name = some c' ↔ m = root ∧ c = c') :
    (∃ k, pt.result (.call pos (.attr p (.name q root ctx) name ctx') args keywords) = some k ∧ pt.takes k) ↔
      pt.bound root = some (.module root) ∧
        Accepts c.signature c.ok (pt.positional args) (pt.named keywords) ∧ pt.takes c.result := by
  constructor
  · rintro ⟨k, hk, htakes⟩
    obtain ⟨c', hc', haccepts, rfl⟩ := (result_eq_some_iff pos).mp hk
    obtain ⟨m, hm, hfun⟩ := callee_attr_eq_some_iff.mp hc'
    obtain ⟨rfl, rfl⟩ := (howner m c').mp hfun
    exact ⟨hm, haccepts, htakes⟩
  · rintro ⟨hm, haccepts, htakes⟩
    refine ⟨c.result, (result_eq_some_iff pos).mpr ⟨c, ?_, haccepts, rfl⟩, htakes⟩
    exact callee_attr_eq_some_iff.mpr ⟨root, hm, (howner root c).mpr ⟨rfl, rfl⟩⟩

theorem named_sublist {ks ks' : List (Keyword Expr)} (h : List.Sublist ks ks') :
    List.Sublist (pt.named ks) (pt.named ks') := by
  induction h with
  | slnil => exact List.Sublist.slnil
  | cons k _ ih => exact ih.trans (List.sublist_append_right _ _)
  | cons_cons k _ ih => exact ih.append_left _

theorem mem_named_filter {keywords : List (Keyword Expr)} {x : String} (hne : x ≠ "Loader")
    (hx : x ∈ (pt.named keywords).map Prod.fst) :
    x ∈ (pt.named (keywords.filter fun k => k.arg ≠ some "Loader")).map Prod.fst := by
  obtain ⟨⟨y, v⟩, hmem, rfl⟩ := List.mem_map.mp hx
  obtain ⟨k, hk, hin⟩ := List.mem_flatMap.mp hmem
  refine List.mem_map_of_mem (List.mem_flatMap.mpr ⟨k, List.mem_filter.mpr ⟨hk, ?_⟩, hin⟩)
  rw [decide_eq_true_eq]
  intro harg
  rw [harg, List.mem_singleton] at hin
  cases hin
  exact hne rfl

end Point

/-! ## Swaps -/

theorem isAttrOf_eq_true {base : String} {attrs : List String} {func : Expr} (h : isAttrOf base attrs func = true) :
    ∃ pos p ctx attr ctx', func = .attr pos (.name p base ctx) attr ctx' ∧ attr ∈ attrs := by
  unfold isAttrOf at h
  split at h
  · next pos p id ctx attr ctx' =>
    rw [decide_eq_true_eq] at h
    obtain ⟨rfl, hattr⟩ := h
    exact ⟨pos, p, ctx, attr, ctx', rfl, hattr⟩
  · cases h

theorem finds_of_findCall {tree : Module} {line : ℕ} {finds : Expr → List (Keyword Expr) → Bool} {c : CallNode}
    (h : findCall tree line finds = some c) : finds c.2.1 c.2.2.2 = true := by
  unfold findCall at h
  have hboth := List.find?_some h
  rw [Bool.and_eq_true] at hboth
  exact hboth.1

theorem callSwap_eq_some {R : CallTransformer} {tree : Module} {line : ℕ} {w : Swap}
    (h : callSwap R tree line = some w) :
    ∃ pos func args keywords func' args' keywords', R.finds func keywords = true ∧
      R.rewrite func args keywords = .call func' args' keywords' ∧
      w = ⟨.call (.call pos func args keywords), pos, (pos, func', args', keywords')⟩ := by
  obtain ⟨⟨pos, func, args, keywords⟩, hfind, h⟩ := Option.bind_eq_some_iff.mp h
  have hfinds := finds_of_findCall hfind
  dsimp only at h
  split at h
  · next func' args' keywords' hrewrite =>
    cases h
    exact ⟨pos, func, args, keywords, func', args', keywords', hfinds, hrewrite, rfl⟩
  · cases h

section
variable {pt : Point} {tree : Module} {line : ℕ} {w : Swap}

theorem eval_runsAfter_iff (h : callSwap evalLiteral tree line = some w) (hran : pt.RanBefore w) :
    pt.RunsAfter w ↔ pt.Fits .eval w.former := by
  obtain ⟨pos, func, args, keywords, func', args', keywords', hfinds, hrewrite, rfl⟩ := callSwap_eq_some h
  cases hrewrite
  obtain ⟨k, hk, htakes⟩ := hran
  obtain ⟨c, hc, haccepts, rfl⟩ := (Point.result_eq_some_iff pos).mp hk
  have hold : c = evalCallee := by
    simp only [evalLiteral] at hfinds
    split at hfinds
    · rw [Point.callee] at hc
      split at hc <;> cases hc
      rfl
    · cases hfinds
  subst hold
  have howner : ∀ m c', moduleFunction m "literal_eval" = some c' ↔ m = "ast" ∧ literalEval = c' := by
    simp [moduleFunction]
  refine (Point.runs_iff howner).trans ?_
  rw [accepts_literalEval_iff haccepts]
  exact and_congr_right fun _ => and_iff_left htakes

theorem yaml_runsAfter_iff (h : callSwap yamlSafeLoader tree line = some w) (hran : pt.RanBefore w) :
    pt.RunsAfter w ↔ pt.Fits .yaml w.former := by
  obtain ⟨pos, func, args, keywords, func', args', keywords', hfinds, hrewrite, rfl⟩ := callSwap_eq_some h
  obtain ⟨p, q, ctx, attr, ctx', rfl, hattr⟩ := isAttrOf_eq_true hfinds
  obtain rfl := List.mem_singleton.mp hattr
  have hnew : Rewritten.call func' args' keywords' = .call (.attr p (.name q "yaml" ctx) "safe_load" ctx') args
      (keywords.filter fun k => k.arg ≠ some "Loader") := by
    simp only [yamlSafeLoader] at hrewrite
    split at hrewrite
    · cases hrewrite
    · exact hrewrite.symm
  cases hnew
  obtain ⟨k, hk, htakes⟩ := hran
  obtain ⟨c, hc, haccepts, rfl⟩ := (Point.result_eq_some_iff pos).mp hk
  obtain ⟨m, hm, hfun⟩ := Point.callee_attr_eq_some_iff.mp hc
  have hload : m = "yaml" ∧ yamlLoad = c := by simpa [moduleFunction] using hfun
  obtain ⟨rfl, rfl⟩ := hload
  have howner : ∀ m c', moduleFunction m "safe_load" = some c' ↔ m = "yaml" ∧ yamlSafeLoad = c' := by
    simp [moduleFunction]
  refine (Point.runs_iff howner).trans ?_
  rw [accepts_safeLoad_iff haccepts (Point.named_sublist List.filter_sublist)
    fun x hx hne => Point.mem_named_filter hne hx]
  exact ⟨fun hall => hall.2.1, fun hfits => ⟨hm, hfits, htakes⟩⟩

theorem tempfile_runsAfter_iff (h : callSwap tempfileSecure tree line = some w) (hran : pt.RanBefore w) :
    pt.RunsAfter w ↔ pt.Fits .tempfile w.former := by
  obtain ⟨pos, func, args, keywords, func', args', keywords', hfinds, hrewrite, rfl⟩ := callSwap_eq_some h
  obtain ⟨p, q, ctx, attr, ctx', rfl, hattr⟩ := isAttrOf_eq_true hfinds
  obtain rfl := List.mem_singleton.mp hattr
  cases hrewrite
  obtain ⟨k, hk, -⟩ := hran
  obtain ⟨c, hc, haccepts, rfl⟩ := (Point.result_eq_some_iff pos).mp hk
  obtain ⟨m, hm, hfun⟩ := Point.callee_attr_eq_some_iff.mp hc
  have hmktemp : m = "tempfile" ∧ mktemp = c := by simpa [moduleFunction] using hfun
  obtain ⟨rfl, rfl⟩ := hmktemp
  have howner : ∀ m c', moduleFunction m "NamedTemporaryFile" = some c' ↔
      m = "tempfile" ∧ namedTemporaryFile = c' := by
    simp [moduleFunction]
  refine (Point.runs_iff howner).trans ?_
  rw [accepts_namedTemporaryFile_iff haccepts]
  exact ⟨fun hall => hall.2, fun hfits => ⟨hm, hfits⟩⟩

theorem credentials_runsAfter_iff {upper : String → String} (h : credentialSwap upper tree line = some w)
    (hran : pt.RanBefore w) : pt.RunsAfter w ↔ pt.Fits .credentials w.former := by
  obtain ⟨⟨pos, name⟩, -, rfl⟩ := Option.map_eq_some_iff.mp h
  obtain ⟨k, hk, htakes⟩ := hran
  cases hk
  constructor
  · rintro ⟨k, hk, -⟩
    obtain ⟨c, hc, -⟩ := (Point.result_eq_some_iff {}).mp hk
    simp only [loadName, Point.callee] at hc
    split at hc
    · next hos => exact hos
    · cases hc
  · intro hos
    refine ⟨.text, (Point.result_eq_some_iff {}).mpr ⟨environGet, if_pos hos, ?_, rfl⟩, htakes⟩
    exact ⟨by simp [Point.positional, environGet], by simp [Point.named], by simp [Point.named],
      by simp [Point.positional, Signature.owed, environGet, withDefault],
      by simp [Point.positional, Point.valueOf, Value.ofConstant, environGet, withDefault, isStr],
      by simp [Point.named]⟩

theorem passwordSwap_eq_some (h : passwordSwap tree line = some w) :
    ∃ pos p q ctx attr ctx' password rest keywords, attr ∈ ["md5", "sha1", "sha256", "sha512"] ∧
      w.emitted = .call pos (.attr {} (loadName "hashlib") "scrypt" .load) [password] scryptKeywords ∧
      (w.former = .call (.call pos (.attr p (.name q "hashlib" ctx) attr ctx') (password :: rest) keywords) ∨
        ∃ digest, w.former =
          .digestOf (.call pos (.attr p (.name q "hashlib" ctx) attr ctx') (password :: rest) keywords) digest) := by
  obtain ⟨⟨pos, func, args, keywords⟩, hfind, h⟩ := Option.bind_eq_some_iff.mp h
  obtain ⟨p, q, ctx, attr, ctx', heq, hattr⟩ := isAttrOf_eq_true (finds_of_findCall hfind)
  obtain rfl : func = _ := heq
  cases args with
  | nil => cases h
  | cons password rest =>
    refine ⟨pos, p, q, ctx, attr, ctx', password, rest, keywords, hattr, ?_⟩
    dsimp only at h
    split at h <;> cases h
    · exact ⟨rfl, .inr ⟨_, rfl⟩⟩
    · exact ⟨rfl, .inl rfl⟩

theorem password_runsAfter_iff (h : passwordSwap tree line = some w) (hran : pt.RanBefore w) :
    pt.RunsAfter w ↔ pt.Fits .passwordHash w.former := by
  obtain ⟨pos, p, q, ctx, attr, ctx', password, rest, keywords, hattr, hemitted, hformer⟩ := passwordSwap_eq_some h
  obtain ⟨k, hk, -⟩ := hran
  -- the hash itself ran, wrapped or not
  have hhash : ∃ k, pt.result (.call pos (.attr p (.name q "hashlib" ctx) attr ctx') (password :: rest) keywords) =
      some k := by
    rcases hformer with hformer | ⟨digest, hformer⟩ <;> rw [hformer] at hk
    · exact ⟨k, hk⟩
    · rw [Point.formerKind] at hk
      split at hk
      · next hres => exact ⟨.hash, hres⟩
      · cases hk
  obtain ⟨k, hk⟩ := hhash
  obtain ⟨c, hc, haccepts, rfl⟩ := (Point.result_eq_some_iff pos).mp hk
  obtain ⟨m, hm, hfun⟩ := Point.callee_attr_eq_some_iff.mp hc
  have hconstructor : m = "hashlib" ∧ hashConstructor = c := by
    simp only [List.mem_cons, List.not_mem_nil, or_false] at hattr
    rcases hattr with rfl | rfl | rfl | rfl <;> simpa [moduleFunction] using hfun
  obtain ⟨rfl, rfl⟩ := hconstructor
  have happend : pt.positional (password :: rest) = pt.positional [password] ++ pt.positional rest := by
    simp [Point.positional]
  have hlen : (pt.positional [password]).length ≤ 1 := by
    have hle := haccepts.arity
    rw [happend, List.length_append] at hle
    exact (Nat.le_add_right _ _).trans hle
  have hbytes : ∀ v ∈ pt.positional [password], isBytes v = true := by
    intro v hv
    cases hargs : pt.positional [password] with
    | nil =>
      rw [hargs] at hv
      cases hv
    | cons u us =>
      have hold := haccepts.positional ("string", u) (by simp [happend, hargs, hashConstructor, withDefault])
      rw [hargs] at hv hlen
      have hus : us = [] := List.eq_nil_of_length_eq_zero (Nat.le_zero.mp (Nat.le_of_succ_le_succ hlen))
      subst hus
      rw [List.mem_singleton] at hv
      subst hv
      simpa [hashConstructor] using hold
  have howner : ∀ m c', moduleFunction m "scrypt" = some c' ↔ m = "hashlib" ∧ scrypt = c' := by
    simp [moduleFunction]
  have hnamed : pt.named scryptKeywords =
      [("salt", .bytes saltPlaceholder), ("n", .int 16384), ("r", .int 8), ("p", .int 1)] := rfl
  have hafter : pt.RunsAfter w ↔ pt.positional [password] ≠ [] ∧ pt.takes .bytes := by
    rw [Point.RunsAfter, hemitted]
    refine (Point.runs_iff howner).trans ?_
    rw [hnamed, accepts_scrypt_iff hbytes hlen]
    exact ⟨fun hall => hall.2, fun hfits => ⟨hm, hfits⟩⟩
  rw [hafter]
  rcases hformer with hformer | ⟨digest, hformer⟩ <;> rw [hformer]
  · exact Iff.rfl
  · exact Iff.rfl

theorem runsAfter_iff {upper : String → String} {r : Rewriting} (h : r.swap upper tree line = some w)
    (hran : pt.RanBefore w) : pt.RunsAfter w ↔ pt.Fits r w.former := by
  cases r with
  | eval => exact eval_runsAfter_iff h hran
  | credentials => exact credentials_runsAfter_iff h hran
  | yaml => exact yaml_runsAfter_iff h hran
  | passwordHash => exact password_runsAfter_iff h hran
  | tempfile => exact tempfile_runsAfter_iff h hran

end

/-! ## The transformers -/

theorem callSwap_of_edited {R : CallTransformer} {tree : Module} {line : ℕ} {ed : Edit} {limitations : List String}
    (h : R.outcome tree line = .edited ed limitations) :
    ∃ w, callSwap R tree line = some w ∧ replaceCall w.pos w.new = ed := by
  unfold CallTransformer.outcome at h
  split at h
  · cases h
  · next pos func args keywords hfind =>
    split at h
    · cases h
    · cases h
    · next func' args' keywords' hrewrite =>
      cases h
      refine ⟨⟨.call (.call pos func args keywords), pos, (pos, func', args', keywords')⟩, ?_, rfl⟩
      rw [callSwap, hfind, Option.bind_some]
      simp only [hrewrite]

theorem digestParent_eq (tree : Module) (pos : Pos) : digestParent tree pos = (digestAttr tree pos).map Prod.fst := by
  unfold digestParent digestAttr
  generalize hfind : List.find? _ ((walkModule tree).filterMap callNode) = found
  cases found with
  | none => rfl
  | some c =>
    have hc := List.find?_some hfind
    obtain ⟨p, func, args, keywords⟩ := c
    dsimp only at hc
    split at hc
    · rfl
    · cases hc

theorem passwordSwap_of_edited {tree : Module} {line : ℕ} {ed : Edit} {limitations : List String}
    (h : passwordHash tree line = .edited ed limitations) :
    ∃ w, passwordSwap tree line = some w ∧ replaceCall w.pos w.new = ed := by
  unfold passwordHash at h
  split at h
  · cases h
  · cases h
  · next pos func password rest keywords hfind =>
    cases h
    rw [passwordSwap, hfind, Option.bind_some, digestParent_eq]
    dsimp only
    cases digestAttr tree pos with
    | none => exact ⟨⟨.call (.call pos func (password :: rest) keywords), pos, _⟩, rfl, rfl⟩
    | some d => exact ⟨⟨.digestOf (.call pos func (password :: rest) keywords) d.2, d.1, _⟩, rfl, rfl⟩

theorem credentialSwap_of_edited {upper : String → String} {tree : Module} {line : ℕ} {ed : Edit}
    {limitations : List String} (h : credentialEnviron upper tree line = .edited ed limitations) :
    ∃ w, credentialSwap upper tree line = some w ∧ replaceValue w.pos w.emitted = ed := by
  unfold credentialEnviron at h
  split at h
  · cases h
  · next pos name hfind =>
    cases h
    exact ⟨_, by rw [credentialSwap, hfind]; rfl, rfl⟩

theorem swap_of_edited {upper : String → String} {r : Rewriting} {tree : Module} {line : ℕ} {ed : Edit}
    {limitations : List String} (h : r.transformer.outcome upper tree line = .edited ed limitations) :
    ∃ w, r.swap upper tree line = some w ∧ r.edit w = ed := by
  cases r with
  | eval => exact callSwap_of_edited h
  | credentials => exact credentialSwap_of_edited h
  | yaml => exact callSwap_of_edited h
  | passwordHash => exact passwordSwap_of_edited h
  | tempfile => exact callSwap_of_edited h

theorem edited_of_changed (P : ExprPrinter) {upper : String → String} {t : Transformer} {tree : Module} {line : ℕ}
    {source : String} (hstatus : (transform P upper t tree line source).status = .success)
    (hchanged : (transform P upper t tree line source).patchedSource ≠ some source) :
    ∃ ed limitations, t.outcome upper tree line = .edited ed limitations := by
  unfold transform at hstatus hchanged
  split at hstatus
  · cases hstatus
  · next heq =>
    rw [heq] at hchanged
    exact absurd rfl hchanged
  · next ed limitations heq => exact ⟨ed, limitations, heq⟩

/-- A rewriting that succeeds and changes the source puts a call in the place of an expression. Where that
expression ran, the call runs and its result is taken, exactly when it fits. -/
theorem emitted_runs_iff (P : ExprPrinter) (upper : String → String) (r : Rewriting) {tree : Module} {line : ℕ}
    {source : String} (hstatus : (transform P upper r.transformer tree line source).status = .success)
    (hchanged : (transform P upper r.transformer tree line source).patchedSource ≠ some source) :
    ∃ w, r.swap upper tree line = some w ∧
      (transform P upper r.transformer tree line source).patchedSource =
        some (unparse P (editStmts (r.edit w) tree)) ∧
      ∀ pt : Point, pt.RanBefore w → (pt.RunsAfter w ↔ pt.Fits r w.former) := by
  obtain ⟨ed, limitations, hedited⟩ := edited_of_changed P hstatus hchanged
  obtain ⟨w, hw, rfl⟩ := swap_of_edited hedited
  refine ⟨w, hw, ?_, fun pt hran => runsAfter_iff hw hran⟩
  unfold transform
  rw [hedited]

/-- `x = eval(text)` on line 1. -/
def evalStatement : Stmt :=
  .assign ⟨1, 0, 1, 14⟩ [.name ⟨1, 0, 1, 1⟩ "x" .store]
    (.call ⟨1, 4, 1, 14⟩ (.name ⟨1, 4, 1, 8⟩ "eval" .load) [.name ⟨1, 9, 1, 13⟩ "text" .load] [])

def evalSource : String := "x = eval(text)"

/-- `text` is a text, and the names given are bound to the modules of their names. -/
def textPoint (modules : List String) : Point where
  bound id := if id = "eval" then some (.builtin "eval") else if id ∈ modules then some (.module id) else none
  value _ := .str "[1, 2]"
  spread _ := []
  unpacked _ := []
  takes k := k = .data

theorem evalStatement_swap : Rewriting.eval.swap String.toUpper [evalStatement] 1 =
    some ⟨.call (.call ⟨1, 4, 1, 14⟩ (.name ⟨1, 4, 1, 8⟩ "eval" .load) [.name ⟨1, 9, 1, 13⟩ "text" .load] []),
      ⟨1, 4, 1, 14⟩, (⟨1, 4, 1, 14⟩, .attr {} (loadName "ast") "literal_eval" .load,
        [.name ⟨1, 9, 1, 13⟩ "text" .load], [])⟩ := rfl

theorem evalStatement_ranBefore (modules : List String) {w : Swap}
    (h : Rewriting.eval.swap String.toUpper [evalStatement] 1 = some w) : (textPoint modules).RanBefore w := by
  rw [evalStatement_swap] at h
  cases h
  exact ⟨.data, rfl, rfl⟩

/-- Behind `import ast` the emitted call runs. -/
theorem evalStatement_runsAfter : ∃ w, Rewriting.eval.swap String.toUpper [evalStatement] 1 = some w ∧
    (textPoint ["ast"]).RunsAfter w := by
  obtain ⟨w, hw, -, hiff⟩ := @emitted_runs_iff plainPrinter String.toUpper .eval [evalStatement] 1 evalSource rfl
    (by decide)
  refine ⟨w, hw, (hiff (textPoint ["ast"]) (evalStatement_ranBefore _ hw)).mpr ?_⟩
  rw [evalStatement_swap] at hw
  cases hw
  exact ⟨rfl, rfl, rfl⟩

/-- The transformer adds no import, so `ast` need not be bound. -/
theorem emitted_runs_fails :
    ¬∀ (P : ExprPrinter) (upper : String → String) (r : Rewriting) (tree : Module) (line : ℕ) (source : String),
      (transform P upper r.transformer tree line source).status = .success →
        (transform P upper r.transformer tree line source).patchedSource ≠ some source →
          ∀ w, r.swap upper tree line = some w → ∀ pt : Point, pt.RanBefore w → pt.RunsAfter w := by
  intro hall
  obtain ⟨k, hk, -⟩ := hall plainPrinter String.toUpper .eval [evalStatement] 1 evalSource rfl (by decide) _
    evalStatement_swap (textPoint []) (evalStatement_ranBefore _ evalStatement_swap)
  cases hk

end TimeCodeSecurity.Remediation
