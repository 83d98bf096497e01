/-
# Lines and mappings of a list of actions

What the emitter's line counter and mappings are worth, for any list of actions:

* `LineOk` : the counter is one plus the newlines in the buffer.  Every action keeps this
  except a `writeln` of a text with a newline in it (`Act.Plain`);
* `lined` : follows whether the buffer is at the start of a line, and rejects a list that
  records a position elsewhere;
* `mapping_is_last` : a position recorded before some text is mapped to the line on which
  this text begins, and no later mapping is for the same line.
-/
import Gobee.Emit

namespace Gobee

variable {prog : Program}

/-! ## Actions one by one -/

theorem acts_append (e : Emitter) (as bs : List Act) :
    e.acts prog (as ++ bs) = (e.acts prog as).acts prog bs :=
  List.foldl_append

theorem acts_cons (e : Emitter) (a : Act) (as : List Act) :
    e.acts prog (a :: as) = (e.act prog a).acts prog as := rfl

theorem newlines_append (s t : Text) : newlines (s ++ t) = newlines s + newlines t :=
  List.count_append

/-- The buffer only grows. -/
theorem act_buf (prog : Program) (e : Emitter) (a : Act) :
    ∃ u, (e.act prog a).buf = e.buf ++ u := by
  cases a with
  | writef t => exact ⟨t, rfl⟩
  | writeln t => exact ⟨t ++ ['\n'], by simp [Emitter.act]⟩
  | writeIndent => exact ⟨List.replicate e.indent '\t', rfl⟩
  | writeRaw t => exact ⟨t, rfl⟩
  | recordPos p => exact ⟨[], by simp only [Emitter.act]; split_ifs <;> simp⟩
  | indent => exact ⟨[], by simp [Emitter.act]⟩
  | dedent => exact ⟨[], by simp [Emitter.act]⟩

theorem acts_buf (prog : Program) (e : Emitter) (as : List Act) :
    ∃ u, (e.acts prog as).buf = e.buf ++ u := by
  induction as generalizing e with
  | nil => exact ⟨[], by simp [Emitter.acts]⟩
  | cons a as ih =>
      obtain ⟨v, hv⟩ := act_buf prog e a
      obtain ⟨u, hu⟩ := ih (e.act prog a)
      exact ⟨v ++ u, by rw [acts_cons, hu, hv, List.append_assoc]⟩

/-- The line counter is right. -/
def Emitter.LineOk (e : Emitter) : Prop := e.cLine = 1 + newlines e.buf

/-- The buffer is empty or ends in a newline. -/
def Emitter.AtStart (e : Emitter) : Prop := e.buf = [] ∨ e.buf.getLast? = some '\n'

/-- The action counts its newlines. -/
def Act.Plain : Act → Prop
  | .writeln s => newlines s = 0
  | _ => True

theorem act_lineOk {e : Emitter} {a : Act} (ha : a.Plain) (he : e.LineOk) :
    (e.act prog a).LineOk := by
  unfold Emitter.LineOk at he ⊢
  cases a with
  | writef s =>
      simp only [Emitter.act, newlines_append]
      omega
  | writeln s =>
      have hs : newlines s = 0 := ha
      have h1 : newlines ['\n'] = 1 := rfl
      simp only [Emitter.act, newlines_append]
      omega
  | writeIndent =>
      have htab : newlines (List.replicate e.indent '\t') = 0 := by
        simp [newlines, List.count_replicate]
      simp only [Emitter.act, newlines_append]
      omega
  | writeRaw s =>
      simp only [Emitter.act, newlines_append]
      omega
  | recordPos p =>
      simp only [Emitter.act]
      split_ifs <;> exact he
  | indent => exact he
  | dedent => exact he

theorem acts_lineOk {as : List Act} (has : ∀ a ∈ as, a.Plain) :
    ∀ {e : Emitter}, e.LineOk → (e.acts prog as).LineOk := by
  induction as with
  | nil => intro e he; exact he
  | cons a as ih =>
      intro e he
      rw [acts_cons]
      exact ih (fun b hb => has b (by simp [hb])) (act_lineOk (has a (by simp)) he)

/-- **At every moment the line counter is one plus the newlines written.** -/
theorem lineOk_of_prefix {as pre : List Act} (has : ∀ a ∈ as, a.Plain) (hpre : pre <+: as) :
    (Emitter.new.acts prog pre).LineOk :=
  acts_lineOk (fun a ha => has a (hpre.subset ha)) rfl

/-! ## Starts of lines -/

/-- Whether the buffer is at the start of a line after some more text. -/
def startAfter (start : Bool) (s : Text) : Bool :=
  match s.getLast? with
  | none => start
  | some c => c == '\n'

/-- How an action changes whether the buffer is at the start of a line; recording a
position elsewhere is rejected.  Indentation counts as text even when it is empty. -/
def Act.line (start : Bool) : Act → Option Bool
  | .writef s | .writeRaw s => some (startAfter start s)
  | .writeln _ => some true
  | .writeIndent => some false
  | .recordPos _ => if start then some true else none
  | .indent | .dedent => some start

/-- `Act.line` along a list of actions. -/
def lined : Bool → List Act → Option Bool
  | start, [] => some start
  | start, a :: as => (a.line start).bind fun s => lined s as

theorem lined_append (as bs : List Act) : ∀ start,
    lined start (as ++ bs) = (lined start as).bind fun s => lined s bs := by
  induction as with
  | nil => intro start; rfl
  | cons a as ih =>
      intro start
      simp only [List.cons_append, lined]
      cases a.line start with
      | none => rfl
      | some s => exact ih s

theorem atStart_append {buf s : Text} {start : Bool}
    (h : start = true → buf = [] ∨ buf.getLast? = some '\n') (hs : startAfter start s = true) :
    buf ++ s = [] ∨ (buf ++ s).getLast? = some '\n' := by
  unfold startAfter at hs
  cases hl : s.getLast? with
  | none =>
      rw [List.getLast?_eq_none_iff.mp hl, List.append_nil]
      rw [hl] at hs
      exact h hs
  | some c =>
      rw [hl] at hs
      right
      rw [List.getLast?_append, hl]
      simpa using hs

theorem act_atStart {e : Emitter} {a : Act} {start start' : Bool}
    (hstart : start = true → e.AtStart) (ha : a.line start = some start') :
    start' = true → (e.act prog a).AtStart := by
  intro h'
  cases a with
  | writef s =>
      cases ha
      exact atStart_append hstart h'
  | writeRaw s =>
      cases ha
      exact atStart_append hstart h'
  | writeln s => exact Or.inr (by simp [Emitter.act])
  | writeIndent =>
      cases ha
      simp at h'
  | recordPos p =>
      simp only [Act.line] at ha
      split_ifs at ha with hs
      simp only [Emitter.act]
      split_ifs <;> exact hstart hs
  | indent =>
      cases ha
      exact hstart h'
  | dedent =>
      cases ha
      exact hstart h'

theorem acts_atStart {as : List Act} :
    ∀ {e : Emitter} {start start' : Bool}, (start = true → e.AtStart) →
      lined start as = some start' → start' = true → (e.acts prog as).AtStart := by
  induction as with
  | nil =>
      intro e start start' hstart h
      cases h
      exact hstart
  | cons a as ih =>
      intro e start start' hstart h
      obtain ⟨s, ha, has⟩ := Option.bind_eq_some_iff.mp h
      rw [acts_cons]
      exact ih (act_atStart hstart ha) has

/-- **Positions are recorded at the start of a line only.** -/
theorem atStart_of_recordPos {as pre post : List Act} {p : Pos} {start : Bool}
    (h : lined true as = some start) (has : as = pre ++ .recordPos p :: post) :
    (Emitter.new.acts prog pre).AtStart := by
  rw [has, lined_append] at h
  obtain ⟨s, hpre, hpost⟩ := Option.bind_eq_some_iff.mp h
  have hs : s = true := by
    rw [lined] at hpost
    obtain ⟨s', hs', -⟩ := Option.bind_eq_some_iff.mp hpost
    simp only [Act.line] at hs'
    split_ifs at hs' with hs
    exact hs
  exact acts_atStart (fun _ => Or.inl rfl) hpre hs

/-! ## Mappings -/

/-- The mappings an action records. -/
def Act.mapped (prog : Program) (e : Emitter) : Act → List SourceMapping
  | .recordPos p => if p = 0 then [] else [⟨e.cLine, prog.position p⟩]
  | _ => []

/-- The mappings a list of actions records. -/
def mapped (prog : Program) (e : Emitter) : List Act → List SourceMapping
  | [] => []
  | a :: as => a.mapped prog e ++ mapped prog (e.act prog a) as

theorem act_mappings (e : Emitter) (a : Act) :
    (e.act prog a).mappings = e.mappings ++ a.mapped prog e := by
  cases a with
  | recordPos p =>
      simp only [Emitter.act, Act.mapped]
      split_ifs <;> simp
  | _ => simp [Emitter.act, Act.mapped]

theorem acts_mappings (as : List Act) : ∀ e : Emitter,
    (e.acts prog as).mappings = e.mappings ++ mapped prog e as := by
  induction as with
  | nil => intro e; simp [Emitter.acts, mapped]
  | cons a as ih =>
      intro e
      rw [acts_cons, ih, act_mappings, mapped, List.append_assoc]

theorem mapped_append (as bs : List Act) : ∀ e : Emitter,
    mapped prog e (as ++ bs) = mapped prog e as ++ mapped prog (e.acts prog as) bs := by
  induction as with
  | nil => intro e; rfl
  | cons a as ih =>
      intro e
      rw [List.cons_append, mapped, mapped, ih, acts_cons, List.append_assoc]

theorem act_cLine (e : Emitter) (a : Act) : e.cLine ≤ (e.act prog a).cLine := by
  cases a with
  | recordPos p =>
      simp only [Emitter.act]
      split_ifs <;> exact le_rfl
  | _ => simp [Emitter.act]

theorem le_of_mem_mapped {as : List Act} : ∀ {e : Emitter} {m : SourceMapping},
    m ∈ mapped prog e as → e.cLine ≤ m.cLine := by
  induction as with
  | nil => intro e m hm; simp [mapped] at hm
  | cons a as ih =>
      intro e m hm
      rcases List.mem_append.mp hm with hm | hm
      · cases a with
        | recordPos p =>
            simp only [Act.mapped] at hm
            split_ifs at hm
            · simp at hm
            · rw [List.mem_singleton.mp hm]
        | _ => simp [Act.mapped] at hm
      · exact (act_cLine e a).trans (ih hm)

/-- **The lines of the mappings never go back.** -/
theorem mapped_pairwise (as : List Act) : ∀ e : Emitter,
    (mapped prog e as).Pairwise fun m m' => m.cLine ≤ m'.cLine := by
  induction as with
  | nil => intro e; exact List.Pairwise.nil
  | cons a as ih =>
      intro e
      rw [mapped]
      cases a with
      | recordPos p =>
          simp only [Act.mapped]
          split_ifs with hp
          · simpa using ih _
          · refine List.pairwise_cons.mpr ⟨fun m hm => ?_, ih _⟩
            exact (act_cLine e (.recordPos p)).trans (le_of_mem_mapped hm)
      | _ => simpa [Act.mapped] using ih _

/-- Text is written before a position is recorded. -/
def opens : List Act → Bool
  | [] => false
  | .writef s :: as | .writeRaw s :: as => !s.isEmpty || opens as
  | .writeln _ :: _ => true
  | .recordPos _ :: _ => false
  | .writeIndent :: as | .indent :: as | .dedent :: as => opens as

/-- Once text `u` stands on the line that begins after `b`, positions are recorded for later
lines only: they are recorded at the start of a line, so `u` has been ended by a newline. -/
theorem later_of_mem_mapped {as : List Act} (has : ∀ a ∈ as, a.Plain) :
    ∀ {e : Emitter} {b u : Text} {start start' : Bool}, e.LineOk → e.buf = b ++ u → u ≠ [] →
      (start = true → e.AtStart) → lined start as = some start' →
      ∀ m ∈ mapped prog e as, 1 + newlines b < m.cLine := by
  induction as with
  | nil => intro e b u start start' _ _ _ _ _ m hm; simp [mapped] at hm
  | cons a as ih =>
      intro e b u start start' hok hbuf hu hstart hl m hm
      obtain ⟨s, ha, hl'⟩ := Option.bind_eq_some_iff.mp hl
      have hok' : (e.act prog a).LineOk := act_lineOk (has a (by simp)) hok
      obtain ⟨v, hv⟩ := act_buf prog e a
      rw [hbuf, List.append_assoc] at hv
      rcases List.mem_append.mp hm with hm | hm
      · cases a with
        | recordPos p =>
            have hs : start = true := by
              simp only [Act.line] at ha
              split_ifs at ha with hs
              exact hs
            have hnl : 1 ≤ newlines u := by
              rcases hstart hs with h | h
              · rw [hbuf] at h
                exact absurd (List.append_eq_nil_iff.mp h).2 hu
              · rw [hbuf, List.getLast?_append_of_ne_nil _ hu] at h
                exact List.one_le_count_iff.mpr (List.mem_of_getLast? h)
            simp only [Act.mapped] at hm
            split_ifs at hm
            · simp at hm
            · rw [List.mem_singleton.mp hm]
              show 1 + newlines b < e.cLine
              rw [hok, hbuf, newlines_append]
              omega
        | _ => simp [Act.mapped] at hm
      · exact ih (fun c hc => has c (by simp [hc])) hok' hv (by simp [hu])
          (act_atStart hstart ha) hl' m hm

/-- After an action list that opens with text, all mappings are for later lines. -/
theorem later_of_opens {as : List Act} (has : ∀ a ∈ as, a.Plain) :
    ∀ {e : Emitter} {start start' : Bool}, e.LineOk → (start = true → e.AtStart) →
      lined start as = some start' → opens as = true →
      ∀ m ∈ mapped prog e as, e.cLine < m.cLine := by
  induction as with
  | nil => intro e start start' _ _ _ ho; simp [opens] at ho
  | cons a as ih =>
      intro e start start' hok hstart hl ho m hm
      obtain ⟨s, ha, hl'⟩ := Option.bind_eq_some_iff.mp hl
      have has' : ∀ b ∈ as, b.Plain := fun b hb => has b (by simp [hb])
      have hok' : (e.act prog a).LineOk := act_lineOk (has a (by simp)) hok
      have hst' : s = true → (e.act prog a).AtStart := act_atStart hstart ha
      -- an action that writes text puts it on the current line
      have hwrite : ∀ t : Text, t ≠ [] → (e.act prog a).buf = e.buf ++ t →
          a.mapped prog e = [] → e.cLine < m.cLine := by
        intro t ht hbuf hmap
        rw [mapped, hmap, List.nil_append] at hm
        rw [hok]
        exact later_of_mem_mapped has' hok' hbuf ht hst' hl' m hm
      have hsilent : (e.act prog a).cLine = e.cLine → a.mapped prog e = [] → opens as = true →
          e.cLine < m.cLine := by
        intro hline hmap ho'
        rw [mapped, hmap, List.nil_append] at hm
        rw [← hline]
        exact ih has' hok' hst' hl' ho' m hm
      cases a with
      | writef t =>
          by_cases ht : t = []
          · subst ht
            exact hsilent rfl rfl (by simpa [opens] using ho)
          · exact hwrite t ht rfl rfl
      | writeRaw t =>
          by_cases ht : t = []
          · subst ht
            exact hsilent rfl rfl (by simpa [opens] using ho)
          · exact hwrite t ht rfl rfl
      | writeln t => exact hwrite (t ++ ['\n']) (by simp) (by simp [Emitter.act]) rfl
      | writeIndent => exact hsilent rfl rfl ho
      | recordPos p => simp [opens] at ho
      | indent => exact hsilent rfl rfl ho
      | dedent => exact hsilent rfl rfl ho

/-- **A position recorded before some text is mapped to the line on which this text
begins, and it is the last one recorded for that line.** -/
theorem mapping_is_last {as pre rest : List Act} {p : Pos} {start : Bool}
    (hplain : ∀ a ∈ as, a.Plain) (hlined : lined true as = some start)
    (has : as = pre ++ .recordPos p :: rest) (hp : p ≠ 0) (ho : opens rest = true) :
    ∃ ms ms', (Emitter.new.acts prog as).mappings =
        ms ++ ⟨1 + newlines (Emitter.new.acts prog pre).buf, prog.position p⟩ :: ms' ∧
      ∀ m ∈ ms', 1 + newlines (Emitter.new.acts prog pre).buf < m.cLine := by
  have hok : (Emitter.new.acts prog pre).LineOk :=
    lineOk_of_prefix hplain ⟨.recordPos p :: rest, has.symm⟩
  have hat : (Emitter.new.acts prog pre).AtStart := atStart_of_recordPos hlined has
  subst has
  rw [lined_append] at hlined
  obtain ⟨s, -, hl⟩ := Option.bind_eq_some_iff.mp hlined
  rw [lined] at hl
  obtain ⟨s', hs', hl'⟩ := Option.bind_eq_some_iff.mp hl
  have hact : (Emitter.new.acts prog pre).act prog (.recordPos p) =
      { Emitter.new.acts prog pre with
        mappings := (Emitter.new.acts prog pre).mappings ++
          [⟨(Emitter.new.acts prog pre).cLine, prog.position p⟩] } := by
    simp [Emitter.act, hp]
  refine ⟨(Emitter.new.acts prog pre).mappings,
    mapped prog ((Emitter.new.acts prog pre).act prog (.recordPos p)) rest, ?_, ?_⟩
  · rw [acts_append, acts_cons, acts_mappings, hact, ← hok]
    simp
  · intro m hm
    rw [← hok]
    have hline : ((Emitter.new.acts prog pre).act prog (.recordPos p)).cLine =
        (Emitter.new.acts prog pre).cLine := by rw [hact]
    rw [← hline]
    refine later_of_opens (fun a ha => hplain a (by simp [ha])) ?_ ?_ hl' ho m hm
    · rw [hact]
      exact hok
    · rw [hact]
      exact fun _ => hat

end Gobee
