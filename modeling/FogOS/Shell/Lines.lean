import FogOS.Shell.Script

/-!
# Line by line

When a script is run line by line: every line up to the first `exit` must have its command in one
of the pieces of 255 bytes in which it is read.
-/

namespace FogOS.Shell

open Kernel

/-! ### Lines in pieces -/

/-- The line has nothing but blanks. -/
def Blank (line : Str) : Prop := ∀ c ∈ line, isBlank c = true

lemma cutComment_append_of_mem {a : Str} (h : 35 ∈ a) (b : Str) :
    cutComment (a ++ b) = cutComment a := by
  obtain ⟨x, y, rfl, hx⟩ := List.eq_append_cons_of_mem h
  have hx' : ∀ c ∈ x, decide (c ≠ 35) = true := fun c hc => by
    simpa using fun he : c = 35 => hx (he ▸ hc)
  simp only [cutComment, List.append_assoc]
  rw [List.takeWhile_append_of_pos hx', List.takeWhile_append_of_pos hx']
  simp

lemma cutComment_append {a : Str} (h : 35 ∉ a) (b : Str) :
    cutComment (a ++ b) = a ++ cutComment b := by
  refine List.takeWhile_append_of_pos fun c hc => ?_
  simpa using fun he : c = 35 => h (he ▸ hc)

lemma cutComment_eq {a : Str} (h : 35 ∉ a) : cutComment a = a := by
  have hcut := cutComment_append h []
  rwa [List.append_nil, show cutComment [] = [] from rfl, List.append_nil] at hcut

lemma Blank.hash {a : Str} (h : Blank a) : 35 ∉ a := fun hm => absurd (h 35 hm) (by decide)

/-- A piece without a command is blank, or it is blank up to its comment. -/
lemma blank_or_hash {p : Str} (h : command p = []) : Blank p ∨ 35 ∈ p := by
  by_cases hm : 35 ∈ p
  · exact Or.inr hm
  · rw [command, cutComment_eq hm] at h
    exact Or.inl (words_eq_nil_iff.mp h)

lemma Blank.command {p : Str} (h : Blank p) : command p = [] := by
  rw [Shell.command, cutComment_eq h.hash]
  exact words_blank h

/-- Blank pieces in front do not matter. -/
lemma command_blank_append {a : Str} (h : Blank a) (b : Str) : command (a ++ b) = command b := by
  rw [command, cutComment_append h.hash, words_blank_append h, command]

lemma blank_flatten {ps : List Str} (h : ∀ q ∈ ps, Blank q) : Blank ps.flatten := by
  intro c hc
  obtain ⟨q, hq, hcq⟩ := List.mem_flatten.mp hc
  exact h q hq c hcq

/-- A comment goes on behind the end of its piece. -/
lemma command_comment {pre : List Str} (hpre : ∀ q ∈ pre, command q = [])
    (hnot : ¬ ∀ q ∈ pre, Blank q) (b : Str) : command (pre.flatten ++ b) = [] := by
  induction pre with
  | nil => simp at hnot
  | cons q pre ih =>
    have hq := hpre q List.mem_cons_self
    have hrest : ∀ x ∈ pre, command x = [] := fun x hx => hpre x (List.mem_cons_of_mem q hx)
    rw [List.flatten_cons, List.append_assoc]
    rcases blank_or_hash hq with hblank | hhash
    · rw [command_blank_append hblank]
      refine ih hrest fun hall => hnot fun x hx => ?_
      rcases List.mem_cons.mp hx with rfl | hx
      · exact hblank
      · exact hall x hx
    · rw [command, cutComment_append_of_mem hhash]
      exact hq

lemma command_flatten_nil {ps : List Str} (h : ∀ q ∈ ps, command q = []) :
    command ps.flatten = [] := by
  by_cases hblank : ∀ q ∈ ps, Blank q
  · exact (blank_flatten hblank).command
  · have hc := command_comment h hblank []
    rwa [List.append_nil] at hc

/-- Pieces without a command behind a piece do not matter. -/
lemma command_append_nil (p : Str) {ps : List Str} (h : ∀ q ∈ ps, command q = []) :
    command (p ++ ps.flatten) = command p := by
  by_cases hm : 35 ∈ p
  · rw [command, cutComment_append_of_mem hm, command]
  · have hblank := words_eq_nil_iff.mp (command_flatten_nil h)
    rw [command, cutComment_append hm, words_append_blank hblank, command, cutComment_eq hm]

/-- There is a first piece with a command, or there is none. -/
lemma first_command (ps : List Str) : (∀ q ∈ ps, command q = []) ∨
    ∃ pre p post, ps = pre ++ p :: post ∧ (∀ q ∈ pre, command q = []) ∧ command p ≠ [] := by
  induction ps with
  | nil => exact Or.inl (by simp)
  | cons q ps ih =>
    by_cases hq : command q = []
    · rcases ih with hall | ⟨pre, p, post, rfl, hpre, hp⟩
      · exact Or.inl (List.forall_mem_cons.mpr ⟨hq, hall⟩)
      · exact Or.inr ⟨q :: pre, p, post, rfl, List.forall_mem_cons.mpr ⟨hq, hpre⟩, hp⟩
    · exact Or.inr ⟨[], q, ps, rfl, by simp, hq⟩

/-! ### What a script is to do -/

/-- The elements of a list up to and including the first that satisfies `p`. -/
def upTo {α : Type} (p : α → Prop) [DecidablePred p] : List α → List α
  | [] => []
  | a :: l => if p a then [a] else a :: upTo p l

/-- The commands of the lines up to the first `exit`, each with the number of its line. -/
def lineCommands (lines : List (Str × Nat)) : List (Nat × List Str) :=
  (upTo (fun l => IsExit l.1) lines).filterMap fun l =>
    if command l.1 = [] then none else some (l.2, command l.1)

/-- The lines of the content, cut at the comment and split into words. -/
def scriptCommands (content : Str) : List (Nat × List Str) :=
  lineCommands (content.splitOn 10).zipIdx

/-- The commands that are run are those of the lines, and each is all there is of its line. -/
def LineByLine (content : Str) : Prop :=
  ∃ s cmds, runScript content = .ok (s, cmds) ∧
    cmds.map (fun c => (lineOf content c.1, c.2)) = scriptCommands content

/-- The pieces of the line that have a command have only blank pieces before them. After `exit`
nothing is read, so that there the first piece that is not blank must have the whole command. -/
def OnePiece (line : Str) : Prop :=
  if IsExit line then
    ∃ pre p post, pieces line = pre ++ p :: post ∧ (∀ q ∈ pre, Blank q) ∧ command p = command line
  else (pieces line).Pairwise fun p q => Blank p ∨ command q = []

/-- The line is run as one command. -/
def Fits (line : Str) : Prop := (command line).length < 128 ∧ OnePiece line

/-- A line of no more than 255 bytes is read as one. -/
lemma onePiece_of_length {line : Str} (h : line.length ≤ 255) : OnePiece line := by
  by_cases hnil : line = []
  · subst hnil
    have hexit : ¬ IsExit [] := by decide
    rw [OnePiece, if_neg hexit, pieces_nil]
    exact List.Pairwise.nil
  · rw [OnePiece, pieces_short hnil h]
    split
    · exact ⟨[], line, [], rfl, by simp, rfl⟩
    · exact List.pairwise_singleton _ _

/-! ### What is run of the pieces -/

/-- The commands that are run of the pieces. -/
def ran (ls : List (Nat × Str)) : Option (List (Nat × List Str)) :=
  (accepted ls).map fun ls => ls.map fun l => (l.1, command l.2)

variable {i : Nat} {p : Str} {ps : List Str} {rest : List (Nat × Str)}

lemma ran_skip (h : ∀ q ∈ ps, command q = []) :
    ran (ps.map (fun q => (i, q)) ++ rest) = ran rest := by
  induction ps with
  | nil => rfl
  | cons q ps ih =>
    rw [List.map_cons, List.cons_append, ran, accepted, if_pos (h q List.mem_cons_self)]
    exact ih fun x hx => h x (List.mem_cons_of_mem q hx)

lemma ran_cons (hc : command p ≠ []) : ran ((i, p) :: rest) =
    if 128 ≤ (command p).length then none
    else if IsExit p then some [(i, command p)]
    else (ran rest).map ((i, command p) :: ·) := by
  rw [ran, accepted]
  dsimp only
  rw [if_neg hc]
  split
  · rfl
  · split
    · rfl
    · rw [ran]
      cases accepted rest <;> rfl

lemma head_ran {l : List (Nat × List Str)} (hc : command p ≠ [])
    (h : ran ((i, p) :: rest) = some l) : l.head? = some (i, command p) := by
  rw [ran_cons hc] at h
  split at h
  · cases h
  · split at h
    · obtain rfl := Option.some.inj h
      rfl
    · obtain ⟨l', -, rfl⟩ := Option.map_eq_some_iff.mp h
      rfl

/-- What is run first of the pieces of one line is labelled with that line. -/
lemma ran_head {l : List (Nat × List Str)} (h : ran (ps.map (fun q => (i, q)) ++ rest) = some l)
    (hne : ¬ ∀ q ∈ ps, command q = []) : ∃ c, l.head? = some (i, c) := by
  obtain ⟨pre, p, post, rfl, hpre, hp⟩ := (first_command ps).resolve_left hne
  rw [List.map_append, List.append_assoc, ran_skip hpre, List.map_cons, List.cons_append] at h
  exact ⟨_, head_ran hp h⟩

lemma lineCommands_cons (line : Str) (i : Nat) (lines : List (Str × Nat)) :
    lineCommands ((line, i) :: lines) =
      if command line = [] then lineCommands lines
      else if IsExit line then [(i, command line)]
      else (i, command line) :: lineCommands lines := by
  have hnil : command line = [] → ¬ IsExit line := by
    intro hc he
    rw [IsExit, hc] at he
    cases he
  rw [lineCommands, upTo]
  dsimp only
  by_cases hc : command line = []
  · rw [if_neg (hnil hc), if_pos hc, List.filterMap_cons, if_pos hc]
    rfl
  · rw [if_neg hc]
    split
    · simp [hc]
    · rw [List.filterMap_cons, if_neg hc]
      rfl

/-- The labels of later lines are larger. -/
lemma lineCommands_label {lines : List Str} {i : Nat} {c : Nat × List Str}
    (h : c ∈ lineCommands (lines.zipIdx (i + 1))) : i < c.1 := by
  induction lines generalizing i with
  | nil => cases h
  | cons line lines ih =>
    rw [List.zipIdx_cons, lineCommands_cons] at h
    split at h
    · exact Nat.lt_of_succ_lt (ih h)
    · split at h
      · obtain rfl := List.mem_singleton.mp h
        exact Nat.lt_succ_self i
      · rcases List.mem_cons.mp h with rfl | h
        · exact Nat.lt_succ_self i
        · exact Nat.lt_of_succ_lt (ih h)

/-- The command of the line is that of the first piece with a command, if there is only blank
space before it. -/
lemma command_pieces {line p : Str} {pre post : List Str} (h : pieces line = pre ++ p :: post)
    (hpre : ∀ q ∈ pre, Blank q) : command line = command (p ++ post.flatten) := by
  rw [← pieces_flatten line, h, List.flatten_append, command_blank_append (blank_flatten hpre),
    List.flatten_cons]

lemma find_first {pre post : List Str} (hps : ps = pre ++ p :: post)
    (hpre : ∀ q ∈ pre, command q = []) (hp : command p ≠ []) :
    ps.find? (command · ≠ []) = some p := by
  have hnone : pre.find? (command · ≠ []) = none :=
    List.find?_eq_none.mpr fun q hq => by simp [hpre q hq]
  rw [hps, List.find?_append, hnone, List.find?_cons_of_pos (by simpa using hp)]
  rfl

section FirstPiece

variable {line : Str} {pre post : List Str} {S : List (Nat × List Str)}

/-- When the line is run as it should be, its first command is all of it. -/
lemma fits_of_ran (hps : pieces line = pre ++ p :: post) (hpre : ∀ q ∈ pre, command q = [])
    (hp : command p ≠ []) (hS : ∀ l, (∃ c, l.head? = some (i, c)) → l ≠ S)
    (h : ran ((i, p) :: (post.map (fun q => (i, q)) ++ rest)) =
      some (if command line = [] then S else if IsExit line then [(i, command line)]
        else (i, command line) :: S)) : Fits line ∧ (IsExit line ∨ ran rest = some S) := by
  have hhead := head_ran hp h
  have hline : command line ≠ [] := by
    intro hnil
    rw [if_pos hnil] at hhead
    exact hS S ⟨_, hhead⟩ rfl
  rw [if_neg hline] at h hhead
  have heq : command p = command line := by
    split at hhead
    · exact (Prod.mk.inj (Option.some.inj hhead)).2.symm
    · exact (Prod.mk.inj (Option.some.inj hhead)).2.symm
  rw [ran_cons hp] at h
  have hlen : ¬ 128 ≤ (command p).length := by
    intro hle
    rw [if_pos hle] at h
    cases h
  rw [if_neg hlen] at h
  have hblank : ∀ q ∈ pre, Blank q := by
    by_contra hnot
    apply hline
    rw [← pieces_flatten line, hps, List.flatten_append]
    exact command_comment hpre hnot _
  have hpe : IsExit p ↔ IsExit line := by rw [IsExit, IsExit, heq]
  rw [Fits, OnePiece, ← heq]
  refine ⟨⟨not_le.mp hlen, ?_⟩, ?_⟩
  · split
    · exact ⟨pre, p, post, hps, hblank, rfl⟩
    · next hexit =>
      rw [if_neg (mt hpe.mp hexit), if_neg hexit] at h
      obtain ⟨l, hran, hl⟩ := Option.map_eq_some_iff.mp h
      obtain rfl : l = S := (List.cons.inj hl).2
      have hpost : ∀ q ∈ post, command q = [] := by
        by_contra hnot
        exact hS l (ran_head hran hnot) rfl
      rw [hps]
      refine List.pairwise_append.mpr ⟨?_, List.pairwise_cons.mpr ⟨?_, ?_⟩, ?_⟩
      · exact List.pairwise_of_forall_mem_list fun _ _ q hq => Or.inr (hpre q hq)
      · exact fun q hq => Or.inr (hpost q hq)
      · exact List.pairwise_of_forall_mem_list fun _ _ q hq => Or.inr (hpost q hq)
      · exact fun q hq _ _ => Or.inl (hblank q hq)
  · by_cases hexit : IsExit line
    · exact Or.inl hexit
    · rw [if_neg (mt hpe.mp hexit), if_neg hexit] at h
      obtain ⟨l, hran, hl⟩ := Option.map_eq_some_iff.mp h
      obtain rfl : l = S := (List.cons.inj hl).2
      have hpost : ∀ q ∈ post, command q = [] := by
        by_contra hnot
        exact hS l (ran_head hran hnot) rfl
      rw [ran_skip hpost] at hran
      exact Or.inr hran

/-- A line that fits is run as it should be. -/
lemma ran_of_fits (hps : pieces line = pre ++ p :: post) (hpre : ∀ q ∈ pre, command q = [])
    (hp : command p ≠ []) (hfits : Fits line) (hrest : IsExit line ∨ ran rest = some S) :
    ran ((i, p) :: (post.map (fun q => (i, q)) ++ rest)) =
      some (if command line = [] then S else if IsExit line then [(i, command line)]
        else (i, command line) :: S) := by
  obtain ⟨hlen, hone⟩ := hfits
  rw [OnePiece] at hone
  by_cases hexit : IsExit line
  · rw [if_pos hexit] at hone
    obtain ⟨pre', p', post', hps', hpre', hp'⟩ := hone
    have hline : command line ≠ [] := by
      intro hnil
      rw [IsExit, hnil] at hexit
      cases hexit
    obtain rfl : p = p' := by
      have hfind := find_first hps hpre hp
      rw [find_first hps' (fun q hq => (hpre' q hq).command) (hp'.trans_ne hline)] at hfind
      exact (Option.some.inj hfind).symm
    have hpe : IsExit p := by
      rw [IsExit, hp']
      exact hexit
    rw [ran_cons hp, if_pos hpe, hp', if_neg (not_le.mpr hlen), if_neg hline, if_pos hexit]
  · rw [if_neg hexit, hps, List.pairwise_append] at hone
    obtain ⟨-, hpp, hcross⟩ := hone
    have hnot : ¬ Blank p := fun hb => hp hb.command
    have hblank : ∀ q ∈ pre, Blank q := fun q hq =>
      (hcross q hq p List.mem_cons_self).resolve_right hp
    have hpost : ∀ q ∈ post, command q = [] := fun q hq =>
      ((List.pairwise_cons.mp hpp).1 q hq).resolve_left hnot
    have heq : command line = command p := by
      rw [command_pieces hps hblank, command_append_nil p hpost]
    have hpe : ¬ IsExit p := by
      rw [IsExit, ← heq]
      exact hexit
    rw [heq] at hlen ⊢
    rw [ran_cons hp, if_neg (not_le.mpr hlen), if_neg hpe, ran_skip hpost,
      hrest.resolve_left hexit, if_neg hp, if_neg hexit]
    rfl

end FirstPiece

/-- A line is run as it should be, and so are the lines behind it, if and only if it fits. -/
lemma ran_line {line : Str} {lines : List Str} {i : Nat} :
    ran (linePieces ((line, i) :: lines.zipIdx (i + 1))) =
        some (lineCommands ((line, i) :: lines.zipIdx (i + 1))) ↔
      Fits line ∧ (IsExit line ∨ ran (linePieces (lines.zipIdx (i + 1))) =
        some (lineCommands (lines.zipIdx (i + 1)))) := by
  rw [linePieces_cons, lineCommands_cons]
  have hlabel : ∀ l, (∃ c, l.head? = some (i, c)) → l ≠ lineCommands (lines.zipIdx (i + 1)) := by
    rintro l ⟨c, hc⟩ rfl
    exact absurd (lineCommands_label (List.mem_of_mem_head? hc)) (lt_irrefl i)
  have hnil : command line = [] → ¬ IsExit line := by
    intro hc he
    rw [IsExit, hc] at he
    cases he
  rcases first_command (pieces line) with hall | ⟨pre, p, post, hps, hpre, hp⟩
  · -- no piece has a command, and neither has the line
    have hline : command line = [] := by
      rw [← pieces_flatten line]
      exact command_flatten_nil hall
    have hfits : Fits line := by
      refine ⟨by rw [hline]; decide, ?_⟩
      rw [OnePiece, if_neg (hnil hline)]
      exact List.pairwise_of_forall_mem_list fun _ _ q hq => Or.inr (hall q hq)
    rw [ran_skip hall, if_pos hline]
    exact ⟨fun h => ⟨hfits, Or.inr h⟩, fun h => h.2.resolve_left (hnil hline)⟩
  · rw [hps, List.map_append, List.append_assoc, ran_skip hpre, List.map_cons, List.cons_append]
    exact ⟨fits_of_ran hps hpre hp hlabel, fun h => ran_of_fits hps hpre hp h.1 h.2⟩

lemma ran_lines {lines : List Str} {i : Nat} :
    ran (linePieces (lines.zipIdx i)) = some (lineCommands (lines.zipIdx i)) ↔
      ∀ line ∈ upTo IsExit lines, Fits line := by
  induction lines generalizing i with
  | nil =>
    refine ⟨fun _ line h => ?_, fun _ => rfl⟩
    cases h
  | cons line lines ih =>
    rw [List.zipIdx_cons, ran_line, ih, upTo]
    split
    · next hexit => simp [hexit]
    · next hexit => simp [hexit]

/-- What `runScript` does, told by the pieces of the lines. -/
lemma lineByLine_iff {content : Str} (hnul : 0 ∉ content) (hlen : content.length < 2 ^ 31) :
    LineByLine content ↔ ran (linePieces (content.splitOn 10).zipIdx) =
      some (scriptCommands content) := by
  have hpieces := reads_script [] (Nat.lt_succ_self content.length)
  rw [List.nil_append, List.count_nil, List.length_nil] at hpieces
  have hran : ran (linePieces (content.splitOn 10).zipIdx) =
      (accepted (reads readLine (content.length + 1) 0 content)).map
        fun ls => ls.map fun l => (lineOf content l.1, command l.2) := by
    rw [ran, ← hpieces, accepted_map, accepted_filter, Option.map_map]
    congr 1
    funext ls
    simp
  have hcount : ([] : List Str).length +
      commandCount ((reads readLine (content.length + 1) 0 content).map (·.2)) < 2 ^ 31 := by
    have hle := length_reads reads_readLine (content.length + 1) 0 content
    have hcmds := List.countP_le_length (p := fun line => command line ≠ [])
      (l := (reads readLine (content.length + 1) 0 content).map (·.2))
    rw [List.length_map] at hcmds
    rw [List.length_nil, commandCount]
    omega
  have hloop := mainLoop_eq reads_readLine State.holds_initial (Nat.lt_succ_self content.length)
    hcount (@isText_reads _ 0 _ hnul)
  rw [hran, LineByLine, runScript]
  cases hacc : accepted (reads readLine (content.length + 1) 0 content) with
  | none =>
    rw [hacc] at hloop
    rw [show mainLoop _ _ _ _ _ = _ from hloop]
    simp
  | some ls =>
    rw [hacc] at hloop
    obtain ⟨s, hs, -⟩ := hloop
    rw [hs]
    constructor
    · rintro ⟨s', cmds, heq, hcmds⟩
      obtain ⟨-, rfl⟩ := Prod.mk.inj (Except.ok.inj heq)
      rw [← hcmds]
      simp
    · intro h
      refine ⟨s, _, rfl, ?_⟩
      rw [← Option.some.inj h]
      simp

/-- A script is run line by line exactly when every line up to the first `exit` fits. -/
theorem script_lineByLine {content : Str} (hnul : 0 ∉ content)
    (hlen : content.length < 2 ^ 31) :
    LineByLine content ↔ ∀ line ∈ upTo IsExit (content.splitOn 10), Fits line := by
  rw [lineByLine_iff hnul hlen]
  exact ran_lines

/-- The script `ls\nexit`. -/
theorem script_lineByLine_short : LineByLine [108, 115, 10, 101, 120, 105, 116] := by
  have hlines : [108, 115, 10, 101, 120, 105, 116].splitOn (10 : UInt8) =
      [[108, 115], [101, 120, 105, 116]] := by decide
  rw [script_lineByLine (by decide) (by decide), hlines]
  intro line hline
  have hmem : line = [108, 115] ∨ line = [101, 120, 105, 116] := by
    have hup : upTo IsExit [[108, 115], [101, 120, 105, 116]] =
        [[108, 115], [101, 120, 105, 116]] := by decide
    rw [hup] at hline
    simpa using hline
  rcases hmem with rfl | rfl
  · exact ⟨by decide, onePiece_of_length (by decide)⟩
  · exact ⟨by decide, onePiece_of_length (by decide)⟩

/-- A comment of 257 bytes that ends in `ls`. -/
def longComment : Str := 35 :: (List.replicate 254 97 ++ [108, 115])

/-- The last two bytes of the comment are run. -/
theorem script_longComment : (runScript longComment).toOption.map (·.2) =
    some [(255, [[108, 115]])] ∧ scriptCommands longComment = [] ∧ ¬ LineByLine longComment := by
  have hrun : (runScript longComment).toOption.map (·.2) = some [(255, [[108, 115]])] := by
    decide +kernel
  have hspec : scriptCommands longComment = [] := by decide +kernel
  refine ⟨hrun, hspec, ?_⟩
  rintro ⟨s, cmds, hs, hcmds⟩
  rw [hs] at hrun
  obtain rfl : cmds = [(255, [[108, 115]])] := by simpa [Except.toOption] using hrun
  rw [hspec] at hcmds
  cases hcmds

end FogOS.Shell
