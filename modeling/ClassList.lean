import ClassList.Main
import ClassList.Session
import ClassList.Tree.Dump
import ClassList.Checked
import ClassList.Proofs.NormalForm
import ClassList.Proofs.Scopes
import ClassList.Proofs.Parentheses
import ClassList.Proofs.Groups
import ClassList.Proofs.Links
import ClassList.Proofs.Spans
import ClassList.Proofs.AtOffset
import ClassList.Proofs.Composition
import ClassList.Proofs.Relocation
import ClassList.Proofs.Findings
import ClassList.Proofs.Acceptance
import ClassList.Proofs.Listing
import ClassList.Proofs.Stopping
import ClassList.Proofs.Domains
import ClassList.Proofs.Sessions
import ClassList.Proofs.NaturalOrder
import ClassList.Proofs.Hovers
import ClassList.Proofs.Dumps
import ClassList.Proofs.Admission
