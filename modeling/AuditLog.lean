import AuditLog.Main
import AuditLog.Proofs.Faithful
import AuditLog.Proofs.Guards
import AuditLog.Proofs.Supply
import AuditLog.Proofs.Release
import AuditLog.Proofs.Independence
import AuditLog.Proofs.Growth
import AuditLog.Proofs.Insertion
import AuditLog.Proofs.Additions
import AuditLog.Proofs.Accounts
import AuditLog.Proofs.Viable
import AuditLog.Proofs.Places
import AuditLog.Proofs.Times
import AuditLog.Proofs.Stepwise
import AuditLog.Proofs.Arrival
import AuditLog.Proofs.Progress
import AuditLog.Proofs.Prompt
import AuditLog.Proofs.Delivery
import AuditLog.Proofs.Logging
import AuditLog.Proofs.Versions
import AuditLog.Proofs.Warnings
import AuditLog.Proofs.Origins
import AuditLog.Proofs.Exhausted
