import Metainfo.Markup.Document
import Metainfo.Proofs.Markup.Fragment

/-!
The events of a document, whether it is read to its end or not, are the beginning of a properly
nested list: the reader remembers the open elements and lets nothing else close.
-/

namespace Metainfo.Markup

open Metainfo.Utf8

theorem Tag.strict_rawName {content : List UInt8} {name : String} {attributes : Attributes}
    (h : Tag.parse content = .ok (name, attributes)) : strict (rawName content) = some name := by
  rw [Tag.parse] at h
  cases hattributes : Tag.attributes (afterName content) with
  | error fault =>
      rw [hattributes] at h
      contradiction
  | ok found =>
      rw [hattributes] at h
      cases hname : strict (rawName content) with
      | none =>
          rw [hname] at h
          contradiction
      | some text =>
          rw [hname] at h
          obtain ⟨rfl, rfl⟩ := Prod.mk.inj (Except.ok.inj h)
          rfl

namespace Progress

/-- The names of the open elements as they are delivered. -/
def names (progress : Progress) : List String :=
  progress.openNames.map fun raw => (strict raw).getD ""

/-- The events of a step lead from the elements open before it to those open after it. -/
def Step.Nests (step : Step) (before : List String) : Prop :=
  ∃ after, Markup.openNames before step.events = some after ∧
    ∀ progress, step.result = .ok progress → progress.names = after

theorem openNames_flush (progress : Progress) (before : List String) :
    Markup.openNames before progress.flush = some before := by
  rw [flush]
  split <;> rfl

theorem nests_halt (fault : Fault) (offset examined : Nat) (before : List String) :
    (halt fault offset examined).Nests before :=
  ⟨before, rfl, by simp [halt]⟩

theorem names_gather (progress : Progress) (text : String) :
    (progress.gather text).names = progress.names := by
  rw [gather]
  split <;> rfl

theorem nests_gather (progress : Progress) (text : String) :
    Step.Nests ⟨[], .ok (progress.gather text)⟩ progress.names := by
  refine ⟨progress.names, rfl, ?_⟩
  rintro next hnext
  rw [← Except.ok.inj hnext, names_gather]

theorem nests_takeText (progress : Progress) (raw : List UInt8) (stop examined : Nat) :
    (progress.takeText raw stop examined).Nests progress.names := by
  rw [takeText]
  split
  · exact nests_halt ..
  · split
    · exact nests_halt ..
    · exact nests_gather progress _

theorem nests_takeReference (progress : Progress) (raw : List UInt8) (stop : Nat) :
    (progress.takeReference raw stop).Nests progress.names := by
  rw [takeReference]
  cases (strict raw).map fun name => Reference.resolve name.toList with
  | none => exact nests_halt ..
  | some resolved =>
      cases resolved with
      | char char => exact nests_gather progress _
      | unknownName => exact nests_halt ..
      | invalidNumber => exact nests_halt ..

theorem nests_takeStart (progress : Progress) (content : List UInt8) (stop : Nat) :
    (progress.takeStart content stop).Nests progress.names := by
  rw [takeStart]
  split
  · exact nests_halt ..
  · obtain ⟨content, closed⟩ := splitSlash content
    dsimp only
    split
    · exact ⟨progress.names, openNames_flush progress _, by simp⟩
    · rename_i name attributes hparse
      have hname := Tag.strict_rawName hparse
      split
      · refine ⟨progress.names, ?_, ?_⟩
        · simp [openNames_flush, nest]
        · rintro next hnext
          rw [← Except.ok.inj hnext]
          rfl
      · refine ⟨name :: progress.names, ?_, ?_⟩
        · simp [openNames_flush, nest]
        · rintro next hnext
          rw [← Except.ok.inj hnext]
          simp [names, hname]

theorem nests_takeEnd (progress : Progress) (content : List UInt8) (start stop : Nat) :
    (progress.takeEnd content start stop).Nests progress.names := by
  rw [takeEnd]
  split
  · exact nests_halt ..
  · rename_i expected outer hopen
    have hnames : progress.names =
        (strict expected).getD "" :: outer.map fun raw => (strict raw).getD "" := by
      rw [names, hopen, List.map_cons]
    split
    · refine ⟨outer.map fun raw => (strict raw).getD "", ?_, ?_⟩
      · simp [openNames_flush, nest, hnames]
      · rintro next hnext
        rw [← Except.ok.inj hnext]
        rfl
    · exact nests_halt ..

theorem nests_take (progress : Progress) (start stop : Nat) (lexeme : Lexeme) :
    (progress.take start stop lexeme).Nests progress.names := by
  cases lexeme with
  | text raw => exact progress.nests_takeText ..
  | characterData raw => exact progress.nests_takeText ..
  | reference raw => exact progress.nests_takeReference ..
  | startTag content => exact progress.nests_takeStart ..
  | endTag content => exact progress.nests_takeEnd ..
  | aside =>
      refine ⟨progress.names, rfl, ?_⟩
      rintro next hnext
      rw [← Except.ok.inj hnext]

end Progress

theorem openNames_readFrom (ending : Ending) (progress : Progress) (offset : Nat)
    (rest : List UInt8) :
    ∃ names, openNames progress.names (readFrom ending progress offset rest).1 = some names := by
  fun_induction readFrom ending progress offset rest with
  | case1 => exact ⟨_, rfl⟩
  | case2 => exact ⟨_, rfl⟩
  | case3 => exact ⟨_, rfl⟩
  | case4 progress offset byte bytes lexeme length hcut events halt htake =>
      obtain ⟨after, hevents, -⟩ := progress.nests_take offset (offset + length) lexeme
      rw [htake] at hevents
      exact ⟨after, hevents⟩
  | case5 progress offset byte bytes lexeme length hcut events next htake later halt hread ih =>
      obtain ⟨after, hevents, hnext⟩ := progress.nests_take offset (offset + length) lexeme
      rw [htake] at hevents hnext
      rw [hread] at ih
      obtain ⟨names, hlater⟩ := ih
      refine ⟨names, ?_⟩
      rw [openNames_append, hevents, Option.bind_some, ← hnext next rfl]
      exact hlater

/-- Whatever is delivered of a document is properly nested as far as it goes. -/
theorem isScript_read (source : Source) : IsScript (read source).events :=
  isScript_iff.mpr (openNames_readFrom source.ending .initial 0 _)

end Metainfo.Markup
