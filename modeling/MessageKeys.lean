import MessageKeys.Main
import MessageKeys.World
import MessageKeys.Proofs.Answers
import MessageKeys.Proofs.Backup
import MessageKeys.Proofs.BackupContents
import MessageKeys.Proofs.Dialogue
import MessageKeys.Proofs.ExtractionAgain
import MessageKeys.Proofs.ExtractionDialogue
import MessageKeys.Proofs.ExtractionEnds
import MessageKeys.Proofs.ExtractionRun
import MessageKeys.Proofs.FileWork
import MessageKeys.Proofs.Files.Contents
import MessageKeys.Proofs.Files.Finding
import MessageKeys.Proofs.Files.Path
import MessageKeys.Proofs.Files.Pattern
import MessageKeys.Proofs.Files.Steps
import MessageKeys.Proofs.Files.TextFile
import MessageKeys.Proofs.Files.Tree
import MessageKeys.Proofs.Files.Writing
import MessageKeys.Proofs.KeyExtraction
import MessageKeys.Proofs.KeyFile
import MessageKeys.Proofs.LanguageFile
import MessageKeys.Proofs.Localization.Failures
import MessageKeys.Proofs.Localization.File
import MessageKeys.Proofs.Localization.Filled
import MessageKeys.Proofs.Localization.Lines
import MessageKeys.Proofs.Localization.Moments
import MessageKeys.Proofs.Localization.Outcomes
import MessageKeys.Proofs.Localization.Progress
import MessageKeys.Proofs.Localization.Reread
import MessageKeys.Proofs.Localization.Rerun
import MessageKeys.Proofs.Localization.Target
import MessageKeys.Proofs.Localization.Traffic
import MessageKeys.Proofs.LocalizationRun
import MessageKeys.Proofs.Looking
import MessageKeys.Proofs.Markup.Appending
import MessageKeys.Proofs.Markup.Consolidation
import MessageKeys.Proofs.Markup.Exchange
import MessageKeys.Proofs.Markup.Extraction
import MessageKeys.Proofs.Markup.FreshName
import MessageKeys.Proofs.Markup.Layout
import MessageKeys.Proofs.Markup.Numbering
import MessageKeys.Proofs.Markup.Occurrences
import MessageKeys.Proofs.Markup.Preparation
import MessageKeys.Proofs.Markup.Reference
import MessageKeys.Proofs.Markup.Reindexing
import MessageKeys.Proofs.Markup.Renaming
import MessageKeys.Proofs.Markup.Replacement
import MessageKeys.Proofs.Markup.Retagging
import MessageKeys.Proofs.Markup.Search
import MessageKeys.Proofs.Markup.Spans
import MessageKeys.Proofs.Markup.Substitution
import MessageKeys.Proofs.Markup.Updates
import MessageKeys.Proofs.Merging
import MessageKeys.Proofs.OrderedMap
import MessageKeys.Proofs.Program
import MessageKeys.Proofs.Properties
import MessageKeys.Proofs.Rendering
import MessageKeys.Proofs.SourceFiles
import MessageKeys.Proofs.Text.Blank
import MessageKeys.Proofs.Text.Cut
import MessageKeys.Proofs.Text.Pieces
import MessageKeys.Proofs.Text.Slice
