import SchemaScript.Json.Printer
import SchemaScript.Main
import SchemaScript.Proofs.AdmittedDeclarations
import SchemaScript.Proofs.Aliases
import SchemaScript.Proofs.AppendedDeclarations
import SchemaScript.Proofs.Comments
import SchemaScript.Proofs.CompleteInterfaces
import SchemaScript.Proofs.CustomDeclarations
import SchemaScript.Proofs.DeclaredIdentifiers
import SchemaScript.Proofs.DeclaredNames
import SchemaScript.Proofs.DefaultRuns
import SchemaScript.Proofs.Emission.Failures
import SchemaScript.Proofs.EnumMembers
import SchemaScript.Proofs.FailedDrains
import SchemaScript.Proofs.FailedEmissions
import SchemaScript.Proofs.FieldNames
import SchemaScript.Proofs.Headers
import SchemaScript.Proofs.InlineTypes
import SchemaScript.Proofs.MissingDefinitions
import SchemaScript.Proofs.Name.AcronymMatches
import SchemaScript.Proofs.Name.Acronyms
import SchemaScript.Proofs.Name.Cases
import SchemaScript.Proofs.OrderOfRequests
import SchemaScript.Proofs.RecursiveReferences
import SchemaScript.Proofs.Redefinition
import SchemaScript.Proofs.Refusals
import SchemaScript.Proofs.Relevance
import SchemaScript.Proofs.Rollback
import SchemaScript.Proofs.Scheduling
import SchemaScript.Proofs.Shadowing
import SchemaScript.Proofs.SplitRendering
import SchemaScript.Proofs.StableNames
import SchemaScript.Proofs.WrittenOnce
import SchemaScript.Workshop.Command
