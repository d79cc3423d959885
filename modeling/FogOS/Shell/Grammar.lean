import FogOS.Shell.NextToken
import FogOS.Shell.Lexer

/-!
# The grammar of sh

The grammar over the tokens of a line. The parser that reads from the list of tokens returns a tree
exactly if the tokens derive it, and the words of the tree are the maximal words of the line, also
after `nulterminate`.
-/

namespace FogOS.Shell.Sh

open Kernel InPlace

/-! ### The grammar -/

/-- `redirs := (('<' | '>' | '>>') word)*`: the tokens, the redirections and the tokens after
them. -/
inductive Redirs : List Token → List Redir → List Token → Prop
  | nil (ts : List Token) : Redirs ts [] ts
  | cons {t w : Token} {ts rest : List Token} {r : Redir} {redirs : List Redir}
      (hr : redircmd t.kind w.q w.eq = some r) (hw : w.kind = .word) (h : Redirs ts redirs rest) :
      Redirs (t :: w :: ts) (r :: redirs) rest

/-- `(word redirs)*`. -/
inductive Args : List Token → List (Nat × Nat) → List Redir → List Token → Prop
  | nil (ts : List Token) : Args ts [] [] ts
  | cons {w : Token} {ts ts' rest : List Token} {args : List (Nat × Nat)}
      {redirs redirs' : List Redir} (hw : w.kind = .word) (hr : Redirs ts redirs ts')
      (h : Args ts' args redirs' rest) :
      Args (w :: ts) ((w.q, w.eq) :: args) (redirs ++ redirs') rest

/-- `'&'*`. -/
inductive Backs : List Token → Cmd → Cmd → List Token → Prop
  | nil (ts : List Token) (cmd : Cmd) : Backs ts cmd cmd ts
  | cons {t : Token} {ts rest : List Token} {cmd cmd' : Cmd} (ht : t.kind = .amp)
      (h : Backs ts (.back cmd) cmd' rest) : Backs (t :: ts) cmd cmd' rest

/-- The nonterminals of the grammar. -/
inductive Nonterminal
  | line
  | pipe
  | exec

/-- The grammar, each rule with the tree that belongs to it: the tokens, the tree and the tokens
after it. -/
inductive Derives : Nonterminal → List Token → Cmd → List Token → Prop
  | line {ts ts₁ rest : List Token} {cmd cmd' : Cmd} (hp : Derives .pipe ts cmd ts₁)
      (hb : Backs ts₁ cmd cmd' rest) : Derives .line ts cmd' rest
  | list {ts ts₁ ts₂ rest : List Token} {t : Token} {cmd cmd' right : Cmd}
      (hp : Derives .pipe ts cmd ts₁) (hb : Backs ts₁ cmd cmd' (t :: ts₂)) (ht : t.kind = .semi)
      (hl : Derives .line ts₂ right rest) : Derives .line ts (.list cmd' right) rest
  | single {ts rest : List Token} {cmd : Cmd} (he : Derives .exec ts cmd rest) :
      Derives .pipe ts cmd rest
  | pipe {ts ts₁ rest : List Token} {t : Token} {left right : Cmd}
      (he : Derives .exec ts left (t :: ts₁)) (ht : t.kind = .pipe)
      (hp : Derives .pipe ts₁ right rest) : Derives .pipe ts (.pipe left right) rest
  | block {ts ts₁ rest : List Token} {t t' : Token} {cmd : Cmd} {redirs : List Redir}
      (ht : t.kind = .lparen) (hl : Derives .line ts cmd (t' :: ts₁)) (ht' : t'.kind = .rparen)
      (hr : Redirs ts₁ redirs rest) : Derives .exec (t :: ts) (wrap cmd redirs) rest
  | exec {ts ts₁ rest : List Token} {args : List (Nat × Nat)} {redirs redirs' : List Redir}
      (hr : Redirs ts redirs ts₁) (ha : Args ts₁ args redirs' rest) (hn : args.length ≤ 15) :
      Derives .exec ts (wrap (.exec args) (redirs ++ redirs')) rest

/-! ### What is left after a derivation -/

section Suffix

variable {ts rest : List Token} {redirs : List Redir} {args : List (Nat × Nat)} {cmd cmd' : Cmd}
  {N : Nonterminal}

lemma Redirs.suffix (h : Redirs ts redirs rest) : rest <:+ ts := by
  induction h with
  | nil ts => exact List.suffix_refl ts
  | cons _ _ _ ih => exact ih.trans ((List.suffix_cons _ _).trans (List.suffix_cons _ _))

lemma Args.suffix (h : Args ts args redirs rest) : rest <:+ ts := by
  induction h with
  | nil ts => exact List.suffix_refl ts
  | cons _ hr _ ih => exact ih.trans (hr.suffix.trans (List.suffix_cons _ _))

lemma Backs.suffix (h : Backs ts cmd cmd' rest) : rest <:+ ts := by
  induction h with
  | nil ts => exact List.suffix_refl ts
  | cons _ _ ih => exact ih.trans (List.suffix_cons _ _)

lemma Derives.suffix (h : Derives N ts cmd rest) : rest <:+ ts := by
  induction h with
  | line _ hb ihp => exact hb.suffix.trans ihp
  | list _ hb _ _ ihp ihl => exact (ihl.trans (List.suffix_cons _ _)).trans (hb.suffix.trans ihp)
  | single _ ihe => exact ihe
  | pipe _ _ _ ihe ihp => exact (ihp.trans (List.suffix_cons _ _)).trans ihe
  | block _ _ _ hr ihl =>
    exact (hr.suffix.trans (List.suffix_cons _ _)).trans (ihl.trans (List.suffix_cons _ _))
  | exec hr ha _ => exact ha.suffix.trans hr.suffix

end Suffix

/-! ### The parser finds a derivation, or it complains -/

/-- The result is as `P` says, or the parser has called `panic`. -/
def Outcome {α : Type} (P : α → List Token → Prop) (x : Except Failure (α × List Token)) : Prop :=
  (∃ a rest, x = .ok (a, rest) ∧ P a rest) ∨ ∃ c, x = .error (.panic c)

section Sound

variable {es : Nat} {ts : List Token} {α β : Type}

lemma Outcome.bind {P : α → List Token → Prop} {Q : β → List Token → Prop}
    {x : Except Failure (α × List Token)} {f : α × List Token → Except Failure (β × List Token)}
    (h : Outcome P x) (hf : ∀ a rest, P a rest → Outcome Q (f (a, rest))) :
    Outcome Q (x >>= f) := by
  rcases h with ⟨a, rest, rfl, ha⟩ | ⟨c, rfl⟩
  · exact hf a rest ha
  · exact Or.inr ⟨c, rfl⟩

lemma Outcome.mono {P Q : α → List Token → Prop} {x : Except Failure (α × List Token)}
    (h : Outcome P x) (hPQ : ∀ a rest, P a rest → Q a rest) : Outcome Q x := by
  rcases h with ⟨a, rest, hx, ha⟩ | hc
  · exact Or.inl ⟨a, rest, hx, hPQ a rest ha⟩
  · exact Or.inr hc

lemma Outcome.ok {P : α → List Token → Prop} {a : α} {rest : List Token} (h : P a rest) :
    Outcome P (pure (a, rest)) := Or.inl ⟨a, rest, rfl, h⟩

/-- A token that begins with one of the symbols is there. -/
lemma next_cons {set : Str} (h : next set ts = true) :
    ∃ t ts', ts = t :: ts' ∧ t.kind.byte.any (strchr set) = true := by
  cases ts with
  | nil => cases h
  | cons t ts => exact ⟨t, ts, rfl, h⟩

/-- A token that begins with one of the symbols and so has to be of one kind. -/
lemma next_kind {set : Str} (kind : Kind)
    (hall : ∀ k : Kind, k.byte.any (strchr set) = true → k = kind) (h : next set ts = true) :
    ∃ t ts', ts = t :: ts' ∧ t.kind = kind := by
  obtain ⟨t, ts', hts, ht⟩ := next_cons h
  exact ⟨t, ts', hts, hall t.kind ht⟩

lemma parseredirs_sound (k : Nat) (redirs : List Redir) (hk : ts.length < k) :
    Outcome (fun redirs' rest => ∃ more, redirs' = redirs ++ more ∧ Redirs ts more rest)
      (parseredirs (listed es) k redirs ts) := by
  induction k generalizing redirs ts with
  | zero => exact absurd hk (Nat.not_lt_zero _)
  | succ k ih =>
    rw [parseredirs]
    simp only [listed, pure_bind]
    by_cases hmore : next [60, 62] ts
    · rw [if_pos hmore]
      obtain ⟨t, ts, rfl, ht⟩ := next_cons hmore
      cases ts with
      | nil => exact Or.inr ⟨_, rfl⟩
      | cons w ts =>
        simp only [pure_bind]
        by_cases hw : w.kind = .word
        · rw [if_neg (not_not.mpr hw)]
          obtain ⟨r, hr⟩ : ∃ r, redircmd t.kind w.q w.eq = some r := by
            cases hkind : t.kind <;> rw [hkind] at ht <;> first | exact ⟨_, rfl⟩ | cases ht
          rw [hr, Option.toList_some]
          simp only [List.length_cons] at hk
          refine (ih (redirs ++ [r]) (by omega)).mono ?_
          rintro redirs' rest ⟨more, rfl, hmore⟩
          exact ⟨r :: more, by simp, Redirs.cons hr hw hmore⟩
        · rw [if_pos hw]
          exact Or.inr ⟨_, rfl⟩
    · rw [if_neg hmore]
      exact Outcome.ok ⟨[], by simp, Redirs.nil ts⟩

lemma parseargs_sound (k : Nat) {args : List (Nat × Nat)} (redirs : List Redir)
    (hk : ts.length < k) (heof : ∀ t ∈ ts, t.kind ≠ .eof) (hargs : args.length ≤ 15) :
    Outcome (fun result rest => ∃ more redirs', result = (args ++ more, redirs ++ redirs') ∧
        Args ts more redirs' rest ∧ (args ++ more).length ≤ 15)
      (parseargs (listed es) k args redirs ts) := by
  induction k generalizing args redirs ts with
  | zero => exact absurd hk (Nat.not_lt_zero _)
  | succ k ih =>
    have hstop : Outcome (fun result rest => ∃ more redirs',
        result = (args ++ more, redirs ++ redirs') ∧ Args ts more redirs' rest ∧
          (args ++ more).length ≤ 15) (pure ((args, redirs), ts)) :=
      Outcome.ok ⟨[], [], by simp, Args.nil ts, by simpa using hargs⟩
    rw [parseargs]
    simp only [listed, pure_bind]
    by_cases hdone : next [124, 41, 38, 59] ts
    · rw [if_pos hdone]
      exact hstop
    · rw [if_neg hdone]
      cases ts with
      | nil => exact hstop
      | cons w ts =>
        simp only [pure_bind]
        rw [if_neg (heof w List.mem_cons_self)]
        by_cases hw : w.kind = .word
        · rw [if_neg (not_not.mpr hw)]
          by_cases hmany : (args ++ [(w.q, w.eq)]).length ≥ maxargs
          · rw [if_pos hmany]
            exact Or.inr ⟨_, rfl⟩
          · rw [if_neg hmany]
            rw [List.length_cons] at hk
            refine (parseredirs_sound k redirs (by omega)).bind ?_
            rintro _ rest ⟨new, rfl, hnew⟩
            have hlen := hnew.suffix.length_le
            have hfew : (args ++ [(w.q, w.eq)]).length ≤ 15 := by
              unfold maxargs at hmany
              omega
            refine (@ih rest _ (redirs ++ new) (by omega) (fun t ht => ?_) hfew).mono ?_
            · exact heof t (List.mem_cons_of_mem w (hnew.suffix.subset ht))
            · rintro _ rest' ⟨more, redirs', rfl, hmore, hlen'⟩
              exact ⟨(w.q, w.eq) :: more, new ++ redirs', by simp, Args.cons hw hnew hmore,
                by simpa using hlen'⟩
        · rw [if_pos hw]
          exact Or.inr ⟨_, rfl⟩

lemma parsebacks_sound (k : Nat) (cmd : Cmd) (hk : ts.length < k) :
    Outcome (fun cmd' rest => Backs ts cmd cmd' rest) (parsebacks (listed es) k cmd ts) := by
  induction k generalizing cmd ts with
  | zero => exact absurd hk (Nat.not_lt_zero _)
  | succ k ih =>
    rw [parsebacks]
    simp only [listed, pure_bind]
    by_cases hmore : next [38] ts
    · rw [if_pos hmore]
      obtain ⟨t, ts, rfl, hamp⟩ :=
        next_kind .amp (by intro k; cases k <;> decide) hmore
      rw [List.length_cons] at hk
      simp only [pure_bind]
      exact (ih (.back cmd) (by omega)).mono fun cmd' rest h => Backs.cons hamp h
    · rw [if_neg hmore]
      exact Outcome.ok (Backs.nil ts cmd)

/-- The four functions that call each other. The stack has to be four frames deep for each token. -/
lemma parse_sound (fuel : Nat) (heof : ∀ t ∈ ts, t.kind ≠ .eof) :
    (4 * ts.length + 4 ≤ fuel → Outcome (Derives .line ts) (parseline (listed es) fuel ts)) ∧
    (4 * ts.length + 3 ≤ fuel → Outcome (Derives .pipe ts) (parsepipe (listed es) fuel ts)) ∧
    (4 * ts.length + 1 ≤ fuel → Outcome (Derives .exec ts) (parseblock (listed es) fuel ts)) ∧
    (4 * ts.length + 2 ≤ fuel → Outcome (Derives .exec ts) (parseexec (listed es) fuel ts)) := by
  induction fuel generalizing ts with
  | zero => exact ⟨fun h => by omega, fun h => by omega, fun h => by omega, fun h => by omega⟩
  | succ fuel ih =>
    refine ⟨fun hf => ?_, fun hf => ?_, fun hf => ?_, fun hf => ?_⟩
    · rw [parseline]
      refine ((ih heof).2.1 (by omega)).bind fun cmd ts₁ hp => ?_
      have hle₁ := hp.suffix.length_le
      refine (parsebacks_sound fuel cmd (by omega)).bind fun cmd' ts₂ hb => ?_
      have hsuf := hb.suffix.trans hp.suffix
      simp only [listed, pure_bind]
      by_cases hmore : next [59] ts₂
      · rw [if_pos hmore]
        obtain ⟨t, ts₂, rfl, hsemi⟩ :=
          next_kind .semi (by intro k; cases k <;> decide) hmore
        have hle := hsuf.length_le
        rw [List.length_cons] at hle
        simp only [pure_bind]
        have heof' : ∀ t ∈ ts₂, t.kind ≠ .eof := fun x hx =>
          heof x (hsuf.subset (List.mem_cons_of_mem t hx))
        refine ((ih heof').1 (by omega)).bind fun right rest hl => ?_
        exact Outcome.ok (Derives.list hp hb hsemi hl)
      · rw [if_neg hmore]
        exact Outcome.ok (Derives.line hp hb)
    · rw [parsepipe]
      refine ((ih heof).2.2.2 (by omega)).bind fun cmd ts₁ he => ?_
      simp only [listed, pure_bind]
      by_cases hmore : next [124] ts₁
      · rw [if_pos hmore]
        obtain ⟨t, ts₁, rfl, hpipe⟩ :=
          next_kind .pipe (by intro k; cases k <;> decide) hmore
        have hle := he.suffix.length_le
        rw [List.length_cons] at hle
        simp only [pure_bind]
        have heof' : ∀ t ∈ ts₁, t.kind ≠ .eof := fun x hx =>
          heof x (he.suffix.subset (List.mem_cons_of_mem t hx))
        refine ((ih heof').2.1 (by omega)).bind fun right rest hp => ?_
        exact Outcome.ok (Derives.pipe he hpipe hp)
      · rw [if_neg hmore]
        exact Outcome.ok (Derives.single he)
    · rw [parseblock]
      simp only [listed, pure_bind]
      by_cases hopens : next [40] ts
      · obtain ⟨t, ts, rfl, hparen⟩ :=
          next_kind .lparen (by intro k; cases k <;> decide) hopens
        rw [hopens, if_neg (by decide)]
        rw [List.length_cons] at hf
        simp only [pure_bind]
        have heof' : ∀ t ∈ ts, t.kind ≠ .eof := fun x hx => heof x (List.mem_cons_of_mem t hx)
        refine ((ih heof').1 (by omega)).bind fun cmd ts₁ hl => ?_
        dsimp only
        by_cases hcloses : next [41] ts₁
        · obtain ⟨t', ts₁, rfl, hparen'⟩ :=
            next_kind .rparen (by intro k; cases k <;> decide) hcloses
          rw [hcloses, if_neg (by decide)]
          have hle := hl.suffix.length_le
          rw [List.length_cons] at hle
          simp only [pure_bind]
          refine (parseredirs_sound fuel [] (by omega)).bind ?_
          rintro _ rest ⟨redirs, rfl, hr⟩
          exact Outcome.ok (Derives.block hparen hl hparen' hr)
        · rw [if_pos (by simpa using hcloses)]
          exact Or.inr ⟨_, rfl⟩
      · rw [if_pos (by simpa using hopens)]
        exact Or.inr ⟨_, rfl⟩
    · rw [parseexec]
      simp only [listed, pure_bind]
      by_cases hopens : next [40] ts
      · rw [if_pos hopens]
        exact (ih heof).2.2.1 (by omega)
      · rw [if_neg hopens]
        refine (parseredirs_sound fuel [] (by omega)).bind ?_
        rintro _ ts₁ ⟨redirs, rfl, hr⟩
        have hle := hr.suffix.length_le
        refine (parseargs_sound fuel _ (by omega) (fun t ht => heof t (hr.suffix.subset ht))
          (Nat.zero_le _)).bind ?_
        rintro _ rest ⟨args, redirs', rfl, ha, hlen⟩
        exact Outcome.ok (Derives.exec hr ha hlen)

end Sound

/-! ### The parser finds every derivation -/

/-- The tokens that may come after what a nonterminal derives. -/
def Nonterminal.follow : Nonterminal → List Kind
  | .line => [.rparen]
  | .pipe => [.rparen, .amp, .semi]
  | .exec => [.rparen, .amp, .semi, .pipe]

/-- The next token, if there is one, is one of these. -/
def Starts (kinds : List Kind) (ts : List Token) : Prop := ∀ t ∈ ts.head?, t.kind ∈ kinds

/-- The function that parses a nonterminal. -/
def Nonterminal.parse {σ : Type} (S : Scanner σ) : Nonterminal → Nat → σ → Except Failure (Cmd × σ)
  | .line => parseline S
  | .pipe => parsepipe S
  | .exec => parseexec S

/-- The frames it needs for `n` tokens. -/
def Nonterminal.frames (n : Nat) : Nonterminal → Nat
  | .line => 4 * n + 4
  | .pipe => 4 * n + 3
  | .exec => 4 * n + 2

section Complete

variable {es k fuel : Nat} {ts rest : List Token} {redirs : List Redir} {args : List (Nat × Nat)}
  {cmd cmd' : Cmd} {N : Nonterminal} {kinds kinds' : List Kind} {set : Str}

lemma Starts.mono (h : Starts kinds ts) (hsub : kinds ⊆ kinds') : Starts kinds' ts :=
  fun t ht => hsub (h t ht)

lemma Starts.next (h : Starts kinds ts) (hall : ∀ k ∈ kinds, k.byte.any (strchr set) = false) :
    next set ts = false := by
  cases ts with
  | nil => rfl
  | cons t ts => exact hall t.kind (h t rfl)

lemma Starts.cons {t : Token} {ts : List Token} (h : t.kind ∈ kinds) : Starts kinds (t :: ts) := by
  intro x hx
  obtain rfl := Option.some.inj hx
  exact h

lemma next_of_kind {t : Token} {ts : List Token} {kind : Kind} {b : Bool} (ht : t.kind = kind)
    (hb : kind.byte.any (strchr set) = b) : Sh.next set (t :: ts) = b := by
  rw [Sh.next, ht, hb]

/-- Arguments begin with a word. -/
lemma Args.next (h : Args ts args redirs rest) (hrest : Sh.next set rest = false) :
    Sh.next set ts = false := by
  cases h with
  | nil => exact hrest
  | cons hw _ _ => exact next_of_kind hw rfl

/-- Redirections begin with one of their symbols. -/
lemma Redirs.next (h : Redirs ts redirs rest) (hrest : Sh.next set rest = false)
    (hset : 60 ∉ set ∧ 62 ∉ set) : Sh.next set ts = false := by
  cases h with
  | nil => exact hrest
  | @cons t w _ _ _ _ hr _ _ =>
    refine next_of_kind rfl ?_
    cases hkind : t.kind <;> rw [hkind] at hr <;>
      first | (cases hr; done) | simp [Kind.byte, strchr, hset]

lemma parseredirs_complete (h : Redirs ts redirs rest) (hrest : Sh.next [60, 62] rest = false)
    (hk : ts.length < k) (before : List Redir) :
    parseredirs (listed es) k before ts = .ok (before ++ redirs, rest) := by
  induction h generalizing k before with
  | nil ts =>
    obtain ⟨k, rfl⟩ := Nat.exists_eq_add_one.mpr (Nat.zero_lt_of_lt hk)
    rw [parseredirs]
    simp only [listed, pure_bind, hrest]
    simp
    rfl
  | @cons t w ts rest r redirs hr hw h ih =>
    obtain ⟨k, rfl⟩ := Nat.exists_eq_add_one.mpr (Nat.zero_lt_of_lt hk)
    have hmore : Sh.next [60, 62] (t :: w :: ts) = true := by
      rw [Sh.next]
      cases hkind : t.kind <;> rw [hkind] at hr <;> first | decide | cases hr
    simp only [List.length_cons] at hk
    rw [parseredirs]
    simp only [listed, pure_bind, hmore, if_true, hw, hr]
    have hnext := @ih k hrest (by omega) (before ++ [r])
    simp only [listed] at hnext
    simpa using hnext

lemma parseargs_complete (h : Args ts args redirs rest)
    (hrest : Starts Nonterminal.exec.follow rest) (hk : ts.length < k) {before : List (Nat × Nat)} (hn : (before ++ args).length ≤ 15) (redirs₀ : List Redir) :
    parseargs (listed es) k before redirs₀ ts =
      .ok ((before ++ args, redirs₀ ++ redirs), rest) := by
  induction h generalizing k before redirs₀ with
  | nil ts =>
    obtain ⟨k, rfl⟩ := Nat.exists_eq_add_one.mpr (Nat.zero_lt_of_lt hk)
    rw [parseargs]
    simp only [listed, pure_bind, List.append_nil]
    cases ts with
    | nil => rfl
    | cons t ts =>
      have hdone : Sh.next [124, 41, 38, 59] (t :: ts) = true := by
        have hmem := hrest t rfl
        rw [Sh.next]
        cases hkind : t.kind <;> rw [hkind] at hmem <;>
          first | decide | exact absurd hmem (by decide)
      simp only [hdone, if_true]
      rfl
  | @cons w ts ts' rest args redirs redirs' hw hr h ih =>
    obtain ⟨k, rfl⟩ := Nat.exists_eq_add_one.mpr (Nat.zero_lt_of_lt hk)
    have hword : Sh.next [124, 41, 38, 59] (w :: ts) = false := next_of_kind hw rfl
    have hstop : Sh.next [60, 62] ts' = false := h.next (hrest.next (by decide))
    simp only [List.length_cons] at hk
    have hle := hr.suffix.length_le
    have hfew : ¬ (before ++ [(w.q, w.eq)]).length ≥ maxargs := by
      simp only [List.length_append, List.length_cons, List.length_nil] at hn ⊢
      unfold maxargs
      omega
    have hredirs := @parseredirs_complete es k _ _ _ hr hstop (by omega) redirs₀
    have hnext := @ih k hrest (by omega) (before ++ [(w.q, w.eq)]) (by simpa using hn)
      (redirs₀ ++ redirs)
    rw [parseargs]
    simp only [listed, pure_bind, hword, hw, hfew] at hredirs hnext ⊢
    simp only [Bool.false_eq_true, if_false, reduceCtorEq, not_true_eq_false, ne_eq, hredirs,
      ok_bind, hnext]
    simp

lemma parsebacks_complete (h : Backs ts cmd cmd' rest) (hrest : Sh.next [38] rest = false)
    (hk : ts.length < k) : parsebacks (listed es) k cmd ts = .ok (cmd', rest) := by
  induction h generalizing k with
  | nil ts cmd =>
    obtain ⟨k, rfl⟩ := Nat.exists_eq_add_one.mpr (Nat.zero_lt_of_lt hk)
    rw [parsebacks]
    simp only [listed, pure_bind, hrest]
    rfl
  | @cons t ts rest cmd cmd' ht h ih =>
    obtain ⟨k, rfl⟩ := Nat.exists_eq_add_one.mpr (Nat.zero_lt_of_lt hk)
    have hmore : Sh.next [38] (t :: ts) = true := next_of_kind ht rfl
    rw [List.length_cons] at hk
    have hnext := @ih k hrest (by omega)
    rw [parsebacks]
    simp only [listed, pure_bind, hmore, if_true] at hnext ⊢
    exact hnext

lemma Nonterminal.frames_le {n : Nat} (h : N.frames n ≤ fuel) : ∃ m, fuel = m + 1 := by
  refine ⟨fuel - 1, ?_⟩
  cases N <;> simp only [Nonterminal.frames] at h <;> omega

/-- The induction is on the derivation: what follows in a rule is what may follow the
nonterminal. -/
lemma parse_complete (h : Derives N ts cmd rest) (hrest : Starts N.follow rest)
    (hf : N.frames ts.length ≤ fuel) : N.parse (listed es) fuel ts = .ok (cmd, rest) := by
  induction h generalizing fuel with
  | @line ts ts₁ rest cmd cmd' hp hb ihp =>
    obtain ⟨fuel, rfl⟩ := Nonterminal.frames_le hf
    simp only [Nonterminal.frames] at hf ihp
    have hfollow : Starts Nonterminal.pipe.follow ts₁ := by
      cases hb with
      | nil => exact hrest.mono (by decide)
      | cons ht _ => exact Starts.cons (by rw [ht]; decide)
    have hpipe := ihp hfollow (by omega : _ ≤ fuel)
    have hbacks := @parsebacks_complete es fuel _ _ _ _ hb (hrest.next (by decide)) (by
      have := hp.suffix.length_le
      omega)
    have hmore : Sh.next [59] rest = false := hrest.next (by decide)
    simp only [Nonterminal.parse] at hpipe ⊢
    rw [parseline, hpipe, ok_bind]
    simp only [hbacks, ok_bind]
    simp only [listed, pure_bind, hmore]
    rfl
  | @list ts ts₁ ts₂ rest t cmd cmd' right hp hb ht hl ihp ihl =>
    obtain ⟨fuel, rfl⟩ := Nonterminal.frames_le hf
    simp only [Nonterminal.frames] at hf ihp ihl
    have hsuf := hb.suffix.trans hp.suffix
    have hle := hsuf.length_le
    rw [List.length_cons] at hle
    have hfollow : Starts Nonterminal.pipe.follow ts₁ := by
      cases hb with
      | nil => exact Starts.cons (by rw [ht]; decide)
      | cons ht _ => exact Starts.cons (by rw [ht]; decide)
    have hpipe := ihp hfollow (by omega : _ ≤ fuel)
    have hnot : Sh.next [38] (t :: ts₂) = false := next_of_kind ht rfl
    have hbacks := @parsebacks_complete es fuel _ _ _ _ hb hnot (by
      have := hp.suffix.length_le
      omega)
    have hmore : Sh.next [59] (t :: ts₂) = true := next_of_kind ht rfl
    have hline := ihl hrest (by omega : _ ≤ fuel)
    simp only [Nonterminal.parse] at hpipe hline ⊢
    rw [parseline, hpipe, ok_bind]
    simp only [hbacks, ok_bind]
    simp only [listed, pure_bind, hmore, if_true] at hline ⊢
    rw [hline]
    rfl
  | @single ts rest cmd he ihe =>
    obtain ⟨fuel, rfl⟩ := Nonterminal.frames_le hf
    simp only [Nonterminal.frames] at hf ihe
    have hexec := ihe (hrest.mono (by decide)) (by omega : _ ≤ fuel)
    have hmore : Sh.next [124] rest = false := hrest.next (by decide)
    simp only [Nonterminal.parse] at hexec ⊢
    rw [parsepipe, hexec, ok_bind]
    simp only [listed, pure_bind, hmore]
    rfl
  | @pipe ts ts₁ rest t left right he ht hp ihe ihp =>
    obtain ⟨fuel, rfl⟩ := Nonterminal.frames_le hf
    simp only [Nonterminal.frames] at hf ihe ihp
    have hle := he.suffix.length_le
    rw [List.length_cons] at hle
    have hfollow : Starts Nonterminal.exec.follow (t :: ts₁) :=
      Starts.cons (by rw [ht]; decide)
    have hexec := ihe hfollow (by omega : _ ≤ fuel)
    have hmore : Sh.next [124] (t :: ts₁) = true := next_of_kind ht rfl
    have hpipe := ihp hrest (by omega : _ ≤ fuel)
    simp only [Nonterminal.parse] at hexec hpipe ⊢
    rw [parsepipe, hexec, ok_bind]
    simp only [listed, pure_bind, hmore, if_true] at hpipe ⊢
    rw [hpipe]
    rfl
  | @block ts ts₁ rest t t' cmd redirs ht hl ht' hr ihl =>
    obtain ⟨fuel, rfl⟩ := Nonterminal.frames_le hf
    simp only [Nonterminal.frames, List.length_cons] at hf ihl
    obtain ⟨fuel, rfl⟩ : ∃ n, fuel = n + 1 := ⟨fuel - 1, by omega⟩
    have hle := hl.suffix.length_le
    rw [List.length_cons] at hle
    have hfollow : Starts Nonterminal.line.follow (t' :: ts₁) :=
      Starts.cons (by rw [ht']; decide)
    have hline := ihl hfollow (by omega : _ ≤ fuel)
    have hopens : Sh.next [40] (t :: ts) = true := next_of_kind ht rfl
    have hcloses : Sh.next [41] (t' :: ts₁) = true := next_of_kind ht' rfl
    have hredirs := @parseredirs_complete es fuel _ _ _ hr (hrest.next (by decide)) (by omega) []
    simp only [Nonterminal.parse] at hline ⊢
    rw [parseexec]
    simp only [listed, pure_bind, hopens, if_true] at hline hredirs ⊢
    rw [parseblock]
    simp only [pure_bind, hopens, Bool.not_true, Bool.false_eq_true, if_false, hline, ok_bind,
      hcloses, hredirs]
    rfl
  | @exec ts ts₁ rest args redirs redirs' hr ha hn =>
    obtain ⟨fuel, rfl⟩ := Nonterminal.frames_le hf
    simp only [Nonterminal.frames] at hf
    have hle := hr.suffix.length_le
    have hstop : Sh.next [60, 62] ts₁ = false := ha.next (hrest.next (by decide))
    have hredirs := @parseredirs_complete es fuel _ _ _ hr hstop (by omega) []
    have hargs := @parseargs_complete es fuel _ _ _ _ ha hrest (by omega) [] (by simpa using hn)
      redirs
    have hopens : Sh.next [40] ts = false :=
      hr.next (ha.next (hrest.next (by decide))) (by decide)
    simp only [Nonterminal.parse]
    rw [parseexec]
    simp only [listed, pure_bind, hopens] at hredirs hargs ⊢
    simp only [Bool.false_eq_true, if_false, hredirs, ok_bind, List.nil_append, hargs]
    rfl

end Complete

/-! ### Words -/

/-- Where the arguments and the file names of a tree begin and end. -/
def Cmd.words : Cmd → List (Nat × Nat)
  | .exec args => args
  | .redir cmd r => cmd.words ++ [(r.file, r.efile)]
  | .pipe left right => left.words ++ right.words
  | .list left right => left.words ++ right.words
  | .back cmd => cmd.words

/-- The words among the tokens. -/
def wordsOf (ts : List Token) : List (Nat × Nat) :=
  (ts.filter fun t => t.kind = .word).map fun t => (t.q, t.eq)

section Words

variable {ts rest : List Token} {redirs : List Redir} {args : List (Nat × Nat)} {cmd cmd' : Cmd}
  {N : Nonterminal} {t : Token}

lemma wordsOf_word (h : t.kind = .word) : wordsOf (t :: ts) = (t.q, t.eq) :: wordsOf ts := by
  simp [wordsOf, h]

lemma wordsOf_symbol (h : t.kind ≠ .word) : wordsOf (t :: ts) = wordsOf ts := by
  simp [wordsOf, h]

lemma words_wrap (cmd : Cmd) (redirs : List Redir) :
    (wrap cmd redirs).words = cmd.words ++ redirs.map fun r => (r.file, r.efile) := by
  induction redirs generalizing cmd with
  | nil => simp [wrap]
  | cons r redirs ih =>
    have h := ih (.redir cmd r)
    rw [wrap] at h ⊢
    rw [List.foldl_cons, h]
    simp [Cmd.words]

lemma Redirs.words (h : Redirs ts redirs rest) :
    wordsOf ts = (redirs.map fun r => (r.file, r.efile)) ++ wordsOf rest := by
  induction h with
  | nil ts => rfl
  | @cons t w ts rest r redirs hr hw _ ih =>
    have hname : (r.file, r.efile) = (w.q, w.eq) ∧ t.kind ≠ .word := by
      cases hkind : t.kind <;> rw [hkind] at hr <;> cases hr <;> exact ⟨rfl, by decide⟩
    rw [wordsOf_symbol hname.2, wordsOf_word hw, ih, List.map_cons, hname.1, List.cons_append]

/-- Redirections in front of what is left. -/
lemma perm_redirs {l a r r' w : List (Nat × Nat)} (h : l.Perm (a ++ r' ++ w)) :
    (r ++ l).Perm (a ++ (r ++ r') ++ w) := by
  have hswap : (r ++ a ++ (r' ++ w)).Perm (a ++ r ++ (r' ++ w)) :=
    List.perm_append_comm.append_right _
  simp only [List.append_assoc] at h hswap ⊢
  exact (h.append_left r).trans hswap

lemma Args.words (h : Args ts args redirs rest) :
    (wordsOf ts).Perm (args ++ (redirs.map fun r => (r.file, r.efile)) ++ wordsOf rest) := by
  induction h with
  | nil ts => simp
  | @cons w ts ts' rest args redirs redirs' hw hr _ ih =>
    rw [wordsOf_word hw, hr.words, List.cons_append, List.cons_append, List.map_append]
    exact List.Perm.cons _ (perm_redirs ih)

lemma Backs.words (h : Backs ts cmd cmd' rest) :
    cmd'.words = cmd.words ∧ wordsOf ts = wordsOf rest := by
  induction h with
  | nil ts cmd => exact ⟨rfl, rfl⟩
  | cons ht _ ih => exact ⟨ih.1, (wordsOf_symbol (by rw [ht]; decide)).trans ih.2⟩

/-- The words of the tree are those of the tokens it is made of. -/
lemma Derives.words (h : Derives N ts cmd rest) :
    (wordsOf ts).Perm (cmd.words ++ wordsOf rest) := by
  induction h with
  | line _ hb ihp => rwa [hb.words.1, ← hb.words.2]
  | @list ts ts₁ ts₂ rest t cmd cmd' right _ hb ht _ ihp ihl =>
    have hskip : wordsOf (t :: ts₂) = wordsOf ts₂ := wordsOf_symbol (by rw [ht]; decide)
    rw [hb.words.2, hskip] at ihp
    rw [Cmd.words, hb.words.1, List.append_assoc]
    exact ihp.trans (ihl.append_left _)
  | single _ ihe => exact ihe
  | @pipe ts ts₁ rest t left right _ ht _ ihe ihp =>
    rw [wordsOf_symbol (by rw [ht]; decide)] at ihe
    rw [Cmd.words, List.append_assoc]
    exact ihe.trans (ihp.append_left _)
  | @block ts ts₁ rest t t' cmd redirs ht _ ht' hr ihl =>
    rw [wordsOf_symbol (by rw [ht']; decide), hr.words] at ihl
    rw [wordsOf_symbol (by rw [ht]; decide), words_wrap, List.append_assoc]
    exact ihl
  | @exec ts ts₁ rest args redirs redirs' hr ha _ =>
    rw [hr.words, words_wrap, Cmd.words, List.map_append]
    exact perm_redirs ha.words

end Words

/-- The bytes around words. -/
def separators : Str := whitespace ++ symbols

lemma isWord_iff (c : UInt8) : isWord c = true ↔ c ∉ separators := by
  simp [isWord, strchr, separators]

/-- A text that begins with a separator has the words of the rest, shifted. -/
lemma isRun_separator {c : UInt8} {text : Str} (hc : c ∈ separators) (n q e : Nat) :
    (∃ i len, q = n + i ∧ e = n + i + len ∧ IsRun separators (c :: text) i len) ↔
      ∃ i len, q = n + 1 + i ∧ e = n + 1 + i + len ∧ IsRun separators text i len := by
  simp only [isRun_delim hc]
  constructor
  · rintro ⟨_, len, hq, he, i, rfl, hrun⟩
    exact ⟨i, len, by omega, by omega, hrun⟩
  · rintro ⟨i, len, hq, he, hrun⟩
    exact ⟨i + 1, len, by omega, by omega, i, rfl, hrun⟩

/-- The words among the tokens of a text are its maximal words. -/
lemma mem_lex (n : Nat) (text : Str) (q e : Nat) :
    (q, e) ∈ wordsOf (lex n text) ↔
      ∃ i len, q = n + i ∧ e = n + i + len ∧ IsRun separators text i len := by
  fun_induction lex n text with
  | case1 n => simp [wordsOf, not_isRun_nil]
  | case2 n c text hc ih =>
    rw [ih, isRun_separator (by simpa [separators, strchr] using Or.inl hc)]
  | case3 n c text hc kind hkind ih =>
    have hsym := single_some hkind
    have hnot : kind ≠ .word := by
      rintro rfl
      cases hsym.2.1
    rw [wordsOf_symbol hnot, ih, isRun_separator (List.mem_append_right _ hsym.1)]
  | case4 n text htwo hc hnone ih =>
    obtain ⟨text, rfl⟩ : ∃ r, text = 62 :: r := by
      cases text with
      | nil => cases htwo
      | cons d r => exact ⟨r, by rw [Option.some.inj htwo]⟩
    rw [wordsOf_symbol (by simp), ih, isRun_separator (by decide), isRun_separator (by decide)]
    rfl
  | case5 n text hc hnone htwo ih =>
    rw [wordsOf_symbol (by simp), ih, isRun_separator (by decide)]
  | case6 n c text hc hnone hgt ih =>
    have hsplit : c :: text = (c :: text.takeWhile isWord) ++ text.dropWhile isWord := by
      rw [List.cons_append, List.takeWhile_append_dropWhile]
    have hword : isWord c = true := by
      simp [isWord, Bool.eq_false_iff.mpr hc, single_none hnone hgt]
    have hall : ∀ d ∈ c :: text.takeWhile isWord, d ∉ separators := by
      intro d hd
      refine (isWord_iff d).mp ?_
      rcases List.mem_cons.mp hd with rfl | hd
      · exact hword
      · exact List.mem_takeWhile_imp hd
    have hafter : ∀ d, (text.dropWhile isWord)[0]? = some d → d ∈ separators := by
      intro d hd
      rw [← List.head?_eq_getElem?] at hd
      have hnot : isWord d = false := by simpa [hd] using List.head?_dropWhile_not isWord text
      by_contra hsep
      rw [(isWord_iff d).mpr hsep] at hnot
      cases hnot
    rw [wordsOf_word rfl, List.mem_cons, ih, hsplit]
    simp only [isRun_word (List.cons_ne_nil _ _) hall hafter, List.length_cons]
    constructor
    · rintro (heq | ⟨i, len, hq, he, hrun⟩)
      · cases heq
        exact ⟨0, (text.takeWhile isWord).length + 1, rfl, by omega, Or.inl ⟨rfl, rfl⟩⟩
      · exact ⟨(text.takeWhile isWord).length + 1 + i, len, by omega, by omega,
          Or.inr ⟨i, rfl, hrun⟩⟩
    · rintro ⟨i, len, hq, he, ⟨rfl, rfl⟩ | ⟨i, rfl, hrun⟩⟩
      · exact Or.inl (Prod.ext_iff.mpr ⟨hq, by simp only; omega⟩)
      · exact Or.inr ⟨i, len, by omega, by omega, hrun⟩

/-- No token of a text is the one that `gettoken` returns at the end. -/
lemma lex_ne_eof (n : Nat) (text : Str) : ∀ t ∈ lex n text, t.kind ≠ .eof := by
  fun_induction lex n text with
  | case1 n => exact fun t ht => absurd ht List.not_mem_nil
  | case2 n c text hc ih => exact ih
  | case3 n c text hc kind hkind ih =>
    refine List.forall_mem_cons.mpr ⟨?_, ih⟩
    rintro rfl
    cases (single_some hkind).2.1
  | case4 n text htwo hc hnone ih => exact List.forall_mem_cons.mpr ⟨by simp, ih⟩
  | case5 n text hc hnone htwo ih => exact List.forall_mem_cons.mpr ⟨by simp, ih⟩
  | case6 n c text hc hnone hgt ih => exact List.forall_mem_cons.mpr ⟨by simp, ih⟩

/-- Each token has a byte of its own. -/
lemma length_lex (n : Nat) (text : Str) : (lex n text).length ≤ text.length := by
  fun_induction lex n text with
  | case1 n => exact le_rfl
  | case2 n c text hc ih => exact ih.trans (Nat.le_succ _)
  | case3 n c text hc kind hkind ih => exact Nat.succ_le_succ ih
  | case4 n text htwo hc hnone ih =>
    rw [List.length_tail] at ih
    simp only [List.length_cons]
    omega
  | case5 n text hc hnone htwo ih => exact Nat.succ_le_succ ih
  | case6 n c text hc hnone hgt ih =>
    exact Nat.succ_le_succ (ih.trans (List.length_dropWhile_le isWord text))

/-! ### Strings -/

/-- NULs in the given places. -/
def zeroed (ends : List Nat) (buf : Str) : Str := ends.foldl (fun buf i => buf.set i 0) buf

section Strings

variable {buf : Str} {ends : List Nat}

lemma length_zeroed (ends : List Nat) (buf : Str) : (zeroed ends buf).length = buf.length := by
  induction ends generalizing buf with
  | nil => rfl
  | cons i ends ih => exact (ih (buf.set i 0)).trans List.length_set

lemma zeroed_append (ends ends' : List Nat) (buf : Str) :
    zeroed (ends ++ ends') buf = zeroed ends' (zeroed ends buf) := List.foldl_append

lemma zeroed_of_notMem {i : Nat} (h : i ∉ ends) : (zeroed ends buf)[i]? = buf[i]? := by
  induction ends generalizing buf with
  | nil => rfl
  | cons j ends ih =>
    rw [List.mem_cons, not_or] at h
    have hrest : (zeroed ends (buf.set j 0))[i]? = (buf.set j 0)[i]? := ih h.2
    exact hrest.trans (List.getElem?_set_ne (Ne.symm h.1))

lemma zeroed_of_mem {i : Nat} (h : i ∈ ends) (hlt : i < buf.length) :
    (zeroed ends buf)[i]? = some 0 := by
  induction ends generalizing buf with
  | nil => exact absurd h List.not_mem_nil
  | cons j ends ih =>
    change (zeroed ends (buf.set j 0))[i]? = some 0
    by_cases hmem : i ∈ ends
    · exact ih hmem (by rwa [List.length_set])
    · obtain rfl := (List.mem_cons.mp h).resolve_right hmem
      rw [zeroed_of_notMem hmem, List.getElem?_set_self hlt]

lemma store_all {args : List (Nat × Nat)} (h : ∀ w ∈ args, w.2 < buf.length) :
    args.foldlM (fun buf arg => store buf arg.2) buf = .ok (zeroed (args.map (·.2)) buf) := by
  induction args generalizing buf with
  | nil => rfl
  | cons w args ih =>
    obtain ⟨hw, hargs⟩ := List.forall_mem_cons.mp h
    rw [List.foldlM_cons, store, if_pos hw, pure_bind, ih]
    · rfl
    · rwa [List.length_set]

/-- `nulterminate` puts a NUL at the end of every word. -/
lemma nulterminate_eq {cmd : Cmd} (h : ∀ w ∈ cmd.words, w.2 < buf.length) :
    nulterminate cmd buf = .ok (zeroed (cmd.words.map (·.2)) buf) := by
  induction cmd generalizing buf with
  | exec args =>
    rw [nulterminate, Cmd.words]
    exact store_all h
  | redir cmd r ih =>
    rw [Cmd.words, List.forall_mem_append] at h
    rw [nulterminate, ih h.1, ok_bind, Cmd.words, List.map_append, zeroed_append, store, if_pos]
    · rfl
    · rw [length_zeroed]
      exact h.2 _ List.mem_cons_self
  | pipe left right ihl ihr =>
    rw [Cmd.words, List.forall_mem_append] at h
    rw [nulterminate, ihl h.1, ok_bind, ihr (by rw [length_zeroed]; exact h.2), Cmd.words,
      List.map_append, zeroed_append]
  | list left right ihl ihr =>
    rw [Cmd.words, List.forall_mem_append] at h
    rw [nulterminate, ihl h.1, ok_bind, ihr (by rw [length_zeroed]; exact h.2), Cmd.words,
      List.map_append, zeroed_append]
  | back cmd ih => exact ih h

end Strings

/-! ### Lines -/

section Main

variable {input : Str} {s fuel : Nat} {toks : List Token} {cmd : Cmd}

/-- Where there is no token left, there is nothing but whitespace left. -/
lemma At.end_iff (h : At input s toks)
    (hhead : ∀ c ∈ (input.drop s).head?, strchr whitespace c = false) :
    s = input.length ↔ toks = [] := by
  obtain ⟨hle, rfl⟩ := h
  constructor
  · rintro rfl
    rw [List.drop_length, lex]
  · intro hnil
    by_contra hne
    obtain ⟨c, text, htext⟩ := List.exists_cons_of_length_pos
      (by rw [List.length_drop]; omega : 0 < (input.drop s).length)
    rw [htext] at hhead hnil
    rw [lex_cons (hhead c rfl)] at hnil
    split at hnil
    · cases hnil
    · split at hnil
      · split at hnil <;> cases hnil
      · cases hnil

lemma cstr_input (h0 : 0 ∉ input) : cstr (input ++ [0]) 0 = input := by
  rw [cstr, List.drop_zero]
  refine takeWhile_prefix (fun c hc => ?_) fun c hc => ?_
  · simpa using fun h : c = 0 => h0 (h ▸ hc)
  · cases hc
    rfl

/-- What `parsecmd` does after `parseline`. -/
lemma parsecmd_rest (h0 : 0 ∉ input) {rest : List Token}
    (hparse : parseline (scanner (input ++ [0]) input.length) fuel 0 = .ok (cmd, s))
    (hat : At input s rest) (hwords : ∀ w ∈ cmd.words, w.2 < (input ++ [0]).length) :
    parsecmd fuel (input ++ [0]) =
      if rest = [] then .ok (cmd, zeroed (cmd.words.map (·.2)) (input ++ [0]))
      else .error (.panic .syntaxError) := by
  obtain ⟨s', hskip, hat', hhead⟩ := hat.skip
  rw [parsecmd, cstr_input h0, hparse, ok_bind]
  simp only [peek, hskip, ok_bind, load_drop hat'.1]
  by_cases hend : rest = []
  · rw [if_pos hend]
    simp only [pure_bind, (hat'.end_iff hhead).mpr hend, nulterminate_eq hwords]
    simp
  · rw [if_neg hend]
    have hne : s' ≠ input.length := fun h => hend ((hat'.end_iff hhead).mp h)
    simp only [pure_bind, if_pos hne]
    rfl

/-- A word of the tree as a string, after `nulterminate`. -/
lemma cstr_word (h0 : 0 ∉ input)
    (hruns : ∀ q e, (q, e) ∈ cmd.words ↔ ∃ n, e = q + n ∧ IsRun separators input q n) {q n : Nat}
    (hrun : IsRun separators input q n) :
    cstr (zeroed (cmd.words.map (·.2)) (input ++ [0])) q = (input.drop q).take n := by
  have hlt : ∀ i c, input[i]? = some c → i < input.length := fun i c hc =>
    (List.getElem?_eq_some_iff.mp hc).1
  refine cstr_of_bytes (fun i hi => ?_) ?_
  · obtain ⟨c, hc, hsep⟩ := hrun.outside (q + i) (Nat.le_add_right q i) (Nat.add_lt_add_left hi q)
    refine ⟨c, ?_, hc, fun h => h0 (h ▸ List.mem_of_getElem? hc)⟩
    rw [zeroed_of_notMem, List.getElem?_append_left (hlt _ _ hc), hc]
    -- a NUL replaces a separator, or it is at the end
    intro hmem
    obtain ⟨⟨q', e⟩, hw, he⟩ := List.mem_map.mp hmem
    obtain ⟨n', rfl, hrun'⟩ := (hruns q' e).mp hw
    simp only at he
    exact hsep (hrun'.right c (by rw [he, hc]))
  · refine zeroed_of_mem (List.mem_map.mpr ⟨(q, q + n), (hruns _ _).mpr ⟨n, rfl, hrun⟩, rfl⟩) ?_
    obtain ⟨c, hc, -⟩ := hrun.outside (q + n - 1) (by have := hrun.pos; omega)
      (by have := hrun.pos; omega)
    have := hlt _ _ hc
    rw [List.length_append, List.length_singleton]
    omega

/-- The words of a tree are the maximal words of the line. -/
lemma words_runs {rest : List Token} (hd : Derives .line (lex 0 input) cmd rest) (q e : Nat) :
    (q, e) ∈ cmd.words ++ wordsOf rest ↔ ∃ n, e = q + n ∧ IsRun separators input q n := by
  rw [← hd.words.mem_iff, mem_lex]
  constructor
  · rintro ⟨i, len, rfl, rfl, hrun⟩
    exact ⟨len, rfl, by rwa [Nat.zero_add]⟩
  · rintro ⟨n, rfl, hrun⟩
    exact ⟨q, n, (Nat.zero_add q).symm, by rw [Nat.zero_add], hrun⟩

/-- A word ends in the line, or with it. -/
lemma words_lt {rest : List Token} (hd : Derives .line (lex 0 input) cmd rest) :
    ∀ w ∈ cmd.words, w.2 < (input ++ [0]).length := by
  rintro ⟨q, e⟩ hw
  obtain ⟨n, rfl, hrun⟩ := (words_runs hd q e).mp (List.mem_append_left _ hw)
  have hpos := hrun.pos
  obtain ⟨c, hc, -⟩ := hrun.outside (q + n - 1) (by omega) (by omega)
  have hlt := (List.getElem?_eq_some_iff.mp hc).1
  rw [List.length_append, List.length_singleton]
  simp only
  omega

/-- A whole line has one tree at most, since the parser finds it. -/
lemma Derives.unique {cmd' : Cmd} (h : Derives .line toks cmd [])
    (h' : Derives .line toks cmd' []) : cmd' = cmd := by
  have hnone : Starts Nonterminal.line.follow [] := fun _ h => by cases h
  have hparse := @parse_complete 0 _ _ _ _ _ h hnone le_rfl
  have hparse' := @parse_complete 0 _ _ _ _ _ h' hnone le_rfl
  rw [hparse] at hparse'
  cases hparse'
  rfl

/-- `parsecmd` returns a tree that the tokens derive, or it calls `panic` and there is none. -/
lemma parsecmd_cases (h0 : 0 ∉ input) (hf : 4 * input.length + 4 ≤ fuel) :
    (∃ cmd, Derives .line (lex 0 input) cmd [] ∧ parsecmd fuel (input ++ [0]) =
        .ok (cmd, zeroed (cmd.words.map (·.2)) (input ++ [0]))) ∨
      (∃ c, parsecmd fuel (input ++ [0]) = .error (.panic c)) ∧
        ∀ cmd, ¬ Derives .line (lex 0 input) cmd [] := by
  have hstart : At input 0 (lex 0 input) := ⟨Nat.zero_le _, by rw [List.drop_zero]⟩
  have hsim := ((scanner_simulates h0).parse fuel hstart).1
  have hframes : 4 * (lex 0 input).length + 4 ≤ fuel := by
    have := length_lex 0 input
    omega
  have hcomplete : ∀ cmd, Derives .line (lex 0 input) cmd [] →
      parseline (listed input.length) fuel (lex 0 input) = .ok (cmd, []) := fun cmd hd =>
    parse_complete hd (fun _ h => by cases h) hframes
  rcases (parse_sound fuel (lex_ne_eof 0 input)).1 hframes with ⟨cmd, rest, hok, hd⟩ | ⟨c, hpanic⟩
  · rw [hok] at hsim
    generalize hparse : parseline (scanner (input ++ [0]) input.length) fuel 0 = result at hsim
    cases hsim with
    | ok _ hat =>
      have hrest := parsecmd_rest h0 hparse hat (words_lt hd)
      by_cases hend : rest = []
      · subst hend
        exact Or.inl ⟨cmd, hd, hrest.trans (if_pos rfl)⟩
      · refine Or.inr ⟨⟨_, hrest.trans (if_neg hend)⟩, fun cmd' hd' => ?_⟩
        have hother := hcomplete cmd' hd'
        rw [hok] at hother
        cases hother
        exact hend rfl
  · rw [hpanic] at hsim
    generalize hparse : parseline (scanner (input ++ [0]) input.length) fuel 0 = result at hsim
    cases hsim with
    | error _ =>
      refine Or.inr ⟨⟨c, ?_⟩, fun cmd' hd' => ?_⟩
      · rw [parsecmd, cstr_input h0, hparse]
        rfl
      · have hother := hcomplete cmd' hd'
        rw [hpanic] at hother
        cases hother

/-- `parsecmd` on a line, with a stack that is deep enough: it ends, with a tree or in `panic`; it
returns a tree exactly if the tokens of the line derive it; and the arguments and file names of the
tree are the maximal words of the line, each of them a string then. -/
theorem parsecmd_grammar (h0 : 0 ∉ input) (hf : 4 * input.length + 4 ≤ fuel) :
    ((∃ cmd buf, parsecmd fuel (input ++ [0]) = .ok (cmd, buf)) ∨
      ∃ c, parsecmd fuel (input ++ [0]) = .error (.panic c)) ∧
    (∀ cmd, (∃ buf, parsecmd fuel (input ++ [0]) = .ok (cmd, buf)) ↔
      Derives .line (lex 0 input) cmd []) ∧
    ∀ cmd buf, parsecmd fuel (input ++ [0]) = .ok (cmd, buf) →
      (∀ q e, (q, e) ∈ cmd.words ↔ ∃ n, e = q + n ∧ IsRun separators input q n) ∧
      ∀ q n, IsRun separators input q n → cstr buf q = (input.drop q).take n := by
  rcases parsecmd_cases h0 hf with ⟨cmd, hd, hparse⟩ | ⟨⟨c, hpanic⟩, hnone⟩
  · refine ⟨Or.inl ⟨cmd, _, hparse⟩, fun cmd' => ⟨?_, fun hd' => ?_⟩, fun cmd' buf hparse' => ?_⟩
    · rintro ⟨buf, hparse'⟩
      rw [hparse] at hparse'
      cases hparse'
      exact hd
    · rw [hd.unique hd']
      exact ⟨_, hparse⟩
    · rw [hparse] at hparse'
      cases hparse'
      have hruns : ∀ q e, (q, e) ∈ cmd.words ↔ ∃ n, e = q + n ∧ IsRun separators input q n := by
        intro q e
        have h := words_runs hd q e
        rwa [show wordsOf [] = [] from rfl, List.append_nil] at h
      exact ⟨hruns, fun q n hrun => cstr_word h0 hruns hrun⟩
  · refine ⟨Or.inr ⟨c, hpanic⟩, fun cmd' => ⟨?_, fun hd' => absurd hd' (hnone cmd')⟩, ?_⟩
    · rintro ⟨buf, hparse⟩
      rw [hpanic] at hparse
      cases hparse
    · intro cmd' buf hparse
      rw [hpanic] at hparse
      cases hparse

/-- The line `a>b;`. -/
theorem parsecmd_grammar_redirect :
    ∃ cmd buf, parsecmd 20 [97, 62, 98, 59, 0] = .ok (cmd, buf) ∧
      Derives .line (lex 0 [97, 62, 98, 59]) cmd [] := by
  have h := @parsecmd_grammar [97, 62, 98, 59] 20 (by decide) (by decide)
  have hrun : parsecmd 20 [97, 62, 98, 59, 0] =
      .ok (.list (.redir (.exec [(0, 1)]) ⟨2, 3, 0x601, 1⟩) (.exec []), [97, 0, 98, 0, 0]) := by
    decide
  exact ⟨_, _, hrun, (h.2.1 _).mp ⟨_, hrun⟩⟩

end Main

end FogOS.Shell.Sh
